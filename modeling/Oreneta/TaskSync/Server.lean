import Oreneta.Lib.Table
import Oreneta.Lib.Text

/-!
# The collection on the server

What the program assumes of a CalDAV server: every version of an object gets an `ETag` no other
version ever had, `If-Match` and `If-None-Match: *` are honoured, and a refused request changes
nothing.  `ETag`s are numbers handed out in order; `Server` carries what follows from that, so a
server that gives one `ETag` to two versions cannot be built.

* `Server.store` — a write that is let through; `Server.drop` — an object removed;
* `Server.put`, `Server.delete` — the two conditional requests of `calendar/caldav.rs`, with the
  answer `put_object` and `delete_object` make of the server's.
-/

namespace Oreneta.TaskSync

open Table List

/-- One version of an object. -/
structure Object where
  href : Str
  etag : Nat
  ics : Str
  deriving DecidableEq, Repr

structure Server where
  /-- What it holds now. -/
  objects : List Object
  /-- Every version it ever held. -/
  versions : List Object
  nextEtag : Nat
  keyed : Keyed Object.href objects
  held : ∀ o ∈ objects, o ∈ versions
  unique : Keyed Object.etag versions
  given : ∀ v ∈ versions, v.etag < nextEtag

/-- The outcome of a conditional write (`carddav::client::Written`). -/
inductive Written where
  /-- Done; the new `ETag`, when the server sent one. -/
  | saved (etag : Option Nat)
  /-- Not at the version the write was made from (HTTP 412): nothing was written. -/
  | conflict
  deriving DecidableEq, Repr

namespace Server

def empty : Server where
  objects := []
  versions := []
  nextEtag := 0
  keyed := nodup_nil
  held := by simp
  unique := nodup_nil
  given := by simp

/-- What stands at an address. -/
def find (s : Server) (href : Str) : Option Object := Table.lookup Object.href s.objects href

/-- A new version at an address. -/
def store (s : Server) (href ics : Str) : Server where
  objects := Table.insertOrReplace Object.href s.objects ⟨href, s.nextEtag, ics⟩
  versions := s.versions ++ [⟨href, s.nextEtag, ics⟩]
  nextEtag := s.nextEtag + 1
  keyed := s.keyed.insertOrReplace _
  held := by
    intro o ho
    rcases mem_append.mp ho with h | h
    · exact mem_append_left _ (s.held o (mem_of_mem_filter h))
    · exact mem_append_right _ h
  unique := by
    apply s.unique.append (by simp [Keyed])
    intro a ha b hb
    rw [mem_singleton.mp hb]
    exact Nat.ne_of_lt (s.given a ha)
  given := by
    intro v hv
    rcases mem_append.mp hv with h | h
    · have := s.given v h
      omega
    · rw [mem_singleton.mp h]
      exact Nat.lt_succ_self _

/-- Nothing at an address any more. -/
def drop (s : Server) (href : Str) : Server where
  objects := s.objects.filter (fun o => decide (o.href ≠ href))
  versions := s.versions
  nextEtag := s.nextEtag
  keyed := s.keyed.filter _
  held o ho := s.held o (mem_of_mem_filter ho)
  unique := s.unique
  given := s.given

/-- `PUT`, under `If-Match: etag` or, with `none`, `If-None-Match: *`.  `tell`: whether the answer
names the new version. -/
def put (s : Server) (href ics : Str) (ifMatch : Option Nat) (tell : Bool) : Written × Server :=
  if (s.find href).map Object.etag = ifMatch then
    (.saved (if tell then some s.nextEtag else none), s.store href ics)
  else (.conflict, s)

/-- `DELETE`, under `If-Match: etag`.  `gone`: whether an object that is not there is answered with
404, which counts as deleted, or with 412. -/
def delete (s : Server) (href : Str) (ifMatch : Nat) (gone : Bool) : Written × Server :=
  match s.find href with
  | some o => if o.etag = ifMatch then (.saved none, s.drop href) else (.conflict, s)
  | none => (if gone then .saved none else .conflict, s)

section Lemmas

variable {s : Server} {href ics h : Str}

theorem find_store : (s.store href ics).find h = if h = href then some ⟨href, s.nextEtag, ics⟩ else s.find h :=
  lookup_insertOrReplace

theorem find_drop : (s.drop href).find h = if h = href then none else s.find h := by
  unfold find drop
  rw [lookup_filter s.keyed]
  cases hf : Table.lookup Object.href s.objects h with
  | none => simp
  | some o =>
    have ho := (lookup_some hf).2
    by_cases hh : h = href
    · simp [Option.filter, ho, hh]
    · simp [Option.filter, ho, hh]

theorem find_eq_none : s.find href = none ↔ ∀ o ∈ s.objects, o.href ≠ href := lookup_eq_none

end Lemmas

end Server

end Oreneta.TaskSync
