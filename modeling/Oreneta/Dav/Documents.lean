import Oreneta.Dav.Multistatus

/-!
# The documents a server sends

A `multistatus` as RFC 4918 has it, and its events.  A name can be written with any prefix, a text in any
number of pieces, and declarations and comments can stand anywhere.

* `Multistatus.events`, `Multistatus.read` — the events of a document and the responses it stands for.
* `foldl_events` — reading the events gives those responses.
* `Sends` — what is relied on of `quick_xml`: it reads the events of the document, and of a part of its text
  the first of them, or an error.
* `read_whole`, `read_part` — a document that arrived whole is read; of one that did not nothing is taken.
-/

namespace Oreneta.Dav

open Text List

/-! ## Documents -/

/-- A piece of the text of an element. -/
inductive Chunk where
  | text (s : Str)
  | cdata (s : Str)
  deriving DecidableEq, Repr

def Chunk.value : Chunk → Str
  | .text s => s
  | .cdata s => s

def Chunk.event : Chunk → Event
  | .text s => .text s
  | .cdata s => .cdata s

def content (chunks : List Chunk) : Str := chunks.flatMap Chunk.value

/-- The elements the multistatus is made of, and those inside properties the queries do not ask for. -/
def reserved : List String :=
  ["multistatus", "response", "href", "status", "propstat", "prop", "comp", "privilege"]

/-- The name of an element inside a property, or of a property. -/
structure PlainName where
  text : String
  isLocal : localName text = text
  free : text ∉ reserved

theorem PlainName.ne {name : PlainName} {other : String} (h : other ∈ reserved) : name.text ≠ other :=
  fun he => name.free (he ▸ h)

inductive DavProperty where
  | value (name : PlainName) (chunks : List Chunk)
  /-- `<resourcetype><collection/></resourcetype>` -/
  | nested (name : PlainName) (kinds : List PlainName)
  /-- `<address-data/>` -/
  | absent (name : PlainName)

structure Propstat where
  properties : List DavProperty
  status : List Chunk

/-- `(href, ((href*, status) | propstat+), error?, responsedescription?)`. -/
structure Response where
  href : List Chunk
  others : List (List Chunk)
  status : Option (List Chunk)
  propstats : List Propstat
  error : Option (List PlainName)
  description : Option (List Chunk)
  named : trim (content href) ≠ []

structure Multistatus where
  /-- The name as the document writes it, with a prefix or without. -/
  dress : String → String
  responses : List Response
  description : Option (List Chunk)
  /-- `<multistatus/>`, when there is nothing in it. -/
  short : Bool
  dressed : ∀ name, localName name = name → localName (dress name) = name

/-! ## Their events -/

section

variable (dress : String → String)

def wrap (name : String) (inner : List Event) : List Event :=
  .start (dress name) [] :: (inner ++ [.end_ (dress name)])

def leaf (name : String) (chunks : List Chunk) : List Event := wrap dress name (chunks.map Chunk.event)

def DavProperty.events : DavProperty → List Event
  | .value name chunks => leaf dress name.text chunks
  | .nested name kinds => wrap dress name.text (kinds.map (fun kind => .empty (dress kind.text) []))
  | .absent name => [.empty (dress name.text) []]

def Propstat.events (p : Propstat) : List Event :=
  wrap dress "propstat" (wrap dress "prop" (p.properties.flatMap (DavProperty.events dress)) ++ leaf dress "status" p.status)

def descriptionEvents (description : Option (List Chunk)) : List Event :=
  description.elim [] (leaf dress "responsedescription")

def errorEvents (error : Option (List PlainName)) : List Event :=
  error.elim [] (fun kinds => wrap dress "error" (kinds.map (fun kind => .empty (dress kind.text) [])))

def Response.events (r : Response) : List Event :=
  wrap dress "response" (leaf dress "href" r.href ++ (r.others.flatMap (leaf dress "href") ++
    (r.status.elim [] (leaf dress "status") ++ (r.propstats.flatMap (Propstat.events dress) ++
      (errorEvents dress r.error ++ descriptionEvents dress r.description)))))

end

def Multistatus.isShort (doc : Multistatus) : Bool := doc.short && doc.responses.isEmpty && doc.description.isNone

def Multistatus.inner (doc : Multistatus) : List Event :=
  doc.responses.flatMap (Response.events doc.dress) ++ descriptionEvents doc.dress doc.description

def Multistatus.events (doc : Multistatus) : List Event :=
  if doc.isShort then [.empty (doc.dress "multistatus") []] else wrap doc.dress "multistatus" doc.inner

/-! ## What they stand for -/

/-- A text property with something in it. -/
def DavProperty.valued : DavProperty → Option (String × Str)
  | .value name chunks => if trim (content chunks) = [] then none else some (name.text, trim (content chunks))
  | .nested _ _ => none
  | .absent _ => none

def DavProperty.kinds : DavProperty → List String
  | .nested name kinds => if name.text = "resourcetype" then kinds.map PlainName.text else []
  | _ => []

/-- The first status that is not a success, or else the last. -/
def keepStatus (status : Str) (chunks : List Chunk) : Str :=
  if status.isEmpty || statusOk status then trim (content chunks) else status

def Response.read (r : Response) : DavResponse :=
  { href := trim (content r.href)
    status := (r.status.toList ++ r.propstats.map Propstat.status).foldl keepStatus []
    props := r.propstats.flatMap (fun p => p.properties.filterMap DavProperty.valued)
    resourceTypes := r.propstats.flatMap (fun p => p.properties.flatMap DavProperty.kinds)
    propHrefs := []
    privileges := []
    components := none }

def Multistatus.read (doc : Multistatus) : List DavResponse := doc.responses.map Response.read

/-! ## Reading an element -/

namespace ReadState

@[simp] theorem step_text (s : ReadState) (chunk : Str) : s.step (.text chunk) = { s with text := s.text ++ chunk } := rfl

@[simp] theorem step_other (s : ReadState) : s.step .other = s := rfl

theorem foldl_chunks : ∀ (chunks : List Chunk) (s : ReadState),
    (chunks.map Chunk.event).foldl step s = { s with text := s.text ++ content chunks }
  | [], s => by simp [content]
  | c :: chunks, s => by
    rw [map_cons, foldl_cons, foldl_chunks chunks]
    cases c <;> simp [step, Chunk.event, content, Chunk.value, append_assoc]

end ReadState

section

variable {dress : String → String} (hdress : ∀ name, localName name = name → localName (dress name) = name)
include hdress

open ReadState

variable {s : ReadState} {r : DavResponse}

/-- An element inside a response: its content, and then what its end adds. -/
theorem foldl_wrap {name : String} (hlocal : localName name = name) (hcomp : name ≠ "comp")
    (hresponse : name ≠ "response") (hmulti : name ≠ "multistatus") {inner : List Event} {text : Str}
    (hinner : inner.foldl step { s with path := name :: s.path, text := [] } =
      { s with path := name :: s.path, text := text, current := some r }) :
    (wrap dress name inner).foldl step s =
      { s with text := [], current := some (closeIn name (name :: s.path) text r) } := by
  unfold wrap
  rw [foldl_cons, foldl_append]
  have hstart : s.step (.start (dress name) []) = { s with path := name :: s.path, text := [] } := by
    simp [step, hdress name hlocal, hcomp, hresponse]
  rw [hstart, hinner]
  simp [step, hdress name hlocal, close, hresponse, hmulti]

theorem foldl_leaf {name : String} (hlocal : localName name = name) (hcomp : name ≠ "comp")
    (hresponse : name ≠ "response") (hmulti : name ≠ "multistatus") (chunks : List Chunk) (hs : s.current = some r) :
    (leaf dress name chunks).foldl step s =
      { s with text := [], current := some (closeIn name (name :: s.path) (content chunks) r) } := by
  refine foldl_wrap hdress hlocal hcomp hresponse hmulti ?_
  rw [foldl_chunks]
  simp [hs]

/-- Elements without content, in an element where they mean nothing. -/
theorem foldl_empties {s : ReadState} {r : DavResponse} (hs : s.current = some r)
    (hpath : ∀ name, s.path.head? = some name → name ≠ "resourcetype" ∧ name ≠ "privilege") :
    ∀ kinds : List PlainName, (kinds.map (fun kind => Event.empty (dress kind.text) [])).foldl step s = s
  | [] => rfl
  | kind :: kinds => by
    have hname : localName (dress kind.text) = kind.text := hdress _ kind.isLocal
    have hcomp : kind.text ≠ "comp" := PlainName.ne (by decide)
    have hres : s.path.head? ≠ some "resourcetype" := fun he => (hpath _ he).1 rfl
    have hpriv : s.path.head? ≠ some "privilege" := fun he => (hpath _ he).2 rfl
    have hstep : s.step (.empty (dress kind.text) []) = s := by
      simp [step, hname, hcomp, hres, hpriv, hs]
    rw [map_cons, foldl_cons, hstep, foldl_empties hs hpath kinds]

theorem foldl_kinds : ∀ (kinds : List PlainName) {s : ReadState} {r : DavResponse}, s.current = some r →
    s.path.head? = some "resourcetype" → (kinds.map (fun kind => Event.empty (dress kind.text) [])).foldl step s =
      { s with current := some { r with resourceTypes := r.resourceTypes ++ kinds.map PlainName.text } }
  | [], s, r, hs, _ => by
    obtain ⟨responses, path, current, text, closed⟩ := s
    cases hs
    simp
  | kind :: kinds, s, r, hs, hpath => by
    have hname : localName (dress kind.text) = kind.text := hdress _ kind.isLocal
    have hcomp : kind.text ≠ "comp" := PlainName.ne (by decide)
    have hstep : s.step (.empty (dress kind.text) []) =
        { s with current := some { r with resourceTypes := r.resourceTypes ++ [kind.text] } } := by
      simp [step, hname, hcomp, hs, hpath]
    have hrest := foldl_kinds kinds (r := { r with resourceTypes := r.resourceTypes ++ [kind.text] })
      (s := { s with current := some { r with resourceTypes := r.resourceTypes ++ [kind.text] } }) rfl hpath
    rw [map_cons, foldl_cons, hstep, hrest]
    simp [append_assoc]

/-! ## Reading a property -/

/-- What a property adds to its response. -/
def DavProperty.into (p : DavProperty) (r : DavResponse) : DavResponse :=
  { r with props := r.props ++ p.valued.toList, resourceTypes := r.resourceTypes ++ p.kinds }

variable {path : List String}

omit hdress in
/-- The end of a property of its own name. -/
theorem closeIn_property {name : PlainName} {value : Str} : closeIn name.text (name.text :: "prop" :: path) value r =
      { r with props := r.props ++ (if trim value = [] then [] else [(name.text, trim value)]) } := by
  have hhref : name.text ≠ "href" := PlainName.ne (by decide)
  have hstatus : name.text ≠ "status" := PlainName.ne (by decide)
  unfold closeIn
  rw [if_neg hhref, if_neg hstatus]
  by_cases hv : trim value = []
  · simp [hv]
  · simp [hv]

theorem foldl_property (p : DavProperty) (hs : s.current = some r) (hpath : s.path = "prop" :: path) :
    ∃ text, (p.events dress).foldl step s = { s with text := text, current := some (p.into r) } := by
  cases p with
  | value name chunks =>
    have hleaf := foldl_leaf hdress name.isLocal (PlainName.ne (by decide)) (PlainName.ne (by decide))
      (PlainName.ne (by decide)) chunks hs
    rw [hpath, closeIn_property] at hleaf
    refine ⟨[], hleaf.trans ?_⟩
    by_cases hv : trim (content chunks) = []
    · simp [DavProperty.into, DavProperty.valued, DavProperty.kinds, hv, hpath]
    · simp [DavProperty.into, DavProperty.valued, DavProperty.kinds, hv, hpath]
  | nested name kinds =>
    refine ⟨[], ?_⟩
    by_cases hres : name.text = "resourcetype"
    · have hinner := foldl_kinds hdress kinds (s := { s with path := name.text :: s.path, text := [] }) hs
        (congrArg some hres)
      have hwrap := foldl_wrap hdress name.isLocal (PlainName.ne (by decide)) (PlainName.ne (by decide))
        (PlainName.ne (by decide)) hinner
      rw [hpath, closeIn_property] at hwrap
      refine hwrap.trans ?_
      simp [DavProperty.into, DavProperty.valued, DavProperty.kinds, hres, hpath, trim, trimEnd, trimStart]
    · have hinner := foldl_empties hdress (s := { s with path := name.text :: s.path, text := [] }) hs (fun n hn => (by
          cases hn
          exact ⟨hres, PlainName.ne (by decide)⟩)) kinds
      have hstart : ({ s with path := name.text :: s.path, text := [] } : ReadState) =
          { s with path := name.text :: s.path, text := [], current := some r } := by rw [hs]
      have hwrap := foldl_wrap hdress name.isLocal (PlainName.ne (by decide)) (PlainName.ne (by decide))
        (PlainName.ne (by decide)) (hinner.trans hstart)
      rw [hpath, closeIn_property] at hwrap
      refine hwrap.trans ?_
      simp [DavProperty.into, DavProperty.valued, DavProperty.kinds, hres, hpath, trim, trimEnd, trimStart]
  | absent name =>
    refine ⟨s.text, ?_⟩
    have hempty := foldl_empties hdress hs (fun n hn => (by
      rw [hpath] at hn
      cases hn
      decide)) [name]
    refine hempty.trans ?_
    obtain ⟨responses, path, current, text, closed⟩ := s
    cases hs
    simp [DavProperty.into, DavProperty.valued, DavProperty.kinds]

theorem foldl_properties : ∀ (ps : List DavProperty) {s : ReadState} {r : DavResponse} {path : List String},
    s.current = some r → s.path = "prop" :: path → ∃ text, (ps.flatMap (DavProperty.events dress)).foldl step s = { s with
      text := text
      current := some { r with
        props := r.props ++ ps.filterMap DavProperty.valued
        resourceTypes := r.resourceTypes ++ ps.flatMap DavProperty.kinds } }
  | [], s, r, path, hs, _ => by
    refine ⟨s.text, ?_⟩
    obtain ⟨responses, path, current, text, closed⟩ := s
    cases hs
    simp
  | p :: ps, s, r, path, hs, hpath => by
    obtain ⟨text, hp⟩ := foldl_property hdress p hs hpath
    obtain ⟨text', hps⟩ := foldl_properties ps (s := { s with text := text, current := some (p.into r) }) rfl hpath
    refine ⟨text', ?_⟩
    rw [flatMap_cons, foldl_append, hp, hps]
    cases hv : p.valued <;> simp [DavProperty.into, append_assoc, hv]

/-! ## Reading a response -/

theorem foldl_status (chunks : List Chunk) (hs : s.current = some r) : (leaf dress "status" chunks).foldl step s =
      { s with text := [], current := some { r with status := keepStatus r.status chunks } } := by
  rw [foldl_leaf hdress (by decide) (by decide) (by decide) (by decide) chunks hs]
  unfold closeIn keepStatus
  simp only [if_neg (show "status" ≠ "href" by decide), if_true]
  split <;> rfl

theorem foldl_propstat (p : Propstat) (hs : s.current = some r) (hpath : s.path = "response" :: path) :
    (p.events dress).foldl step s = { s with
      text := []
      current := some { r with
        props := r.props ++ p.properties.filterMap DavProperty.valued
        resourceTypes := r.resourceTypes ++ p.properties.flatMap DavProperty.kinds
        status := keepStatus r.status p.status } } := by
  obtain ⟨text, hprops⟩ := foldl_properties hdress p.properties
    (s := { s with path := "prop" :: "propstat" :: s.path, text := [] }) hs rfl
  have hprop := foldl_wrap hdress (s := { s with path := "propstat" :: s.path, text := [] }) (by decide)
    (by decide) (by decide) (by decide) hprops
  have hclose : ∀ (value : Str) (r : DavResponse), closeIn "prop" ("prop" :: "propstat" :: s.path) value r = r :=
    fun value r => by simp [closeIn]
  rw [hclose] at hprop
  have hinner : (wrap dress "prop" (p.properties.flatMap (DavProperty.events dress)) ++
      leaf dress "status" p.status).foldl step { s with path := "propstat" :: s.path, text := [] } = { s with
        path := "propstat" :: s.path
        text := []
        current := some { r with
          props := r.props ++ p.properties.filterMap DavProperty.valued
          resourceTypes := r.resourceTypes ++ p.properties.flatMap DavProperty.kinds
          status := keepStatus r.status p.status } } := by
    rw [foldl_append, hprop, foldl_status hdress p.status rfl]
  refine (foldl_wrap hdress (by decide) (by decide) (by decide) (by decide) hinner).trans ?_
  simp [closeIn, hpath]

theorem foldl_propstats : ∀ (ps : List Propstat) {s : ReadState} {r : DavResponse} {path : List String},
    s.current = some r → s.path = "response" :: path → ∃ text, (ps.flatMap (Propstat.events dress)).foldl step s = { s with
      text := text
      current := some { r with
        props := r.props ++ ps.flatMap fun p => p.properties.filterMap DavProperty.valued
        resourceTypes := r.resourceTypes ++ ps.flatMap fun p => p.properties.flatMap DavProperty.kinds
        status := (ps.map Propstat.status).foldl keepStatus r.status } }
  | [], s, r, path, hs, _ => by
    refine ⟨s.text, ?_⟩
    obtain ⟨responses, path, current, text, closed⟩ := s
    cases hs
    simp
  | p :: ps, s, r, path, hs, hpath => by
    obtain ⟨text, hps⟩ := foldl_propstats ps (s := { s with
      text := []
      current := some { r with
        props := r.props ++ p.properties.filterMap DavProperty.valued
        resourceTypes := r.resourceTypes ++ p.properties.flatMap DavProperty.kinds
        status := keepStatus r.status p.status } }) rfl hpath
    refine ⟨text, ?_⟩
    rw [flatMap_cons, foldl_append, foldl_propstat hdress p hs hpath, hps]
    simp [append_assoc]

theorem foldl_others : ∀ (others : List (List Chunk)) {s : ReadState} {r : DavResponse} {path : List String},
    s.current = some r → s.path = "response" :: path → r.href ≠ [] →
    ∃ text, (others.flatMap (leaf dress "href")).foldl step s = { s with text := text }
  | [], s, r, path, _, _, _ => ⟨s.text, rfl⟩
  | chunks :: others, s, r, path, hs, hpath, hhref => by
    have hleaf : (leaf dress "href" chunks).foldl step s = { s with text := [] } := by
      rw [foldl_leaf hdress (by decide) (by decide) (by decide) (by decide) chunks hs]
      simp [closeIn, hpath, hhref, ← hs]
    obtain ⟨text, hrest⟩ := foldl_others others (s := { s with text := [] }) hs hpath hhref
    exact ⟨text, by rw [flatMap_cons, foldl_append, hleaf, hrest]⟩

theorem foldl_description (description : Option (List Chunk)) (hs : s.current = some r) (hpath : s.path = "response" :: path) :
    ∃ text, (descriptionEvents dress description).foldl step s = { s with text := text } := by
  cases description with
  | none => exact ⟨s.text, rfl⟩
  | some chunks =>
    refine ⟨[], ?_⟩
    show (leaf dress "responsedescription" chunks).foldl step s = _
    rw [foldl_leaf hdress (by decide) (by decide) (by decide) (by decide) chunks hs]
    simp [closeIn, hpath, ← hs]

theorem foldl_error (error : Option (List PlainName)) (hs : s.current = some r) (hpath : s.path = "response" :: path) :
    ∃ text, (errorEvents dress error).foldl step s = { s with text := text } := by
  cases error with
  | none => exact ⟨s.text, rfl⟩
  | some kinds =>
    refine ⟨[], ?_⟩
    have hinner := foldl_empties hdress (s := { s with path := "error" :: s.path, text := [] }) hs (fun n hn => (by
        cases hn
        decide)) kinds
    have hstart : ({ s with path := "error" :: s.path, text := [] } : ReadState) =
        { s with path := "error" :: s.path, text := [], current := some r } := by rw [hs]
    refine (foldl_wrap hdress (by decide) (by decide) (by decide) (by decide) (hinner.trans hstart)).trans ?_
    simp [closeIn, hpath, ← hs]

theorem foldl_statuses (status : Option (List Chunk)) (hs : s.current = some r) :
    ∃ text, (status.elim [] (leaf dress "status")).foldl step s = { s with
      text := text
      current := some { r with status := status.toList.foldl keepStatus r.status } } := by
  cases status with
  | none =>
    refine ⟨s.text, ?_⟩
    obtain ⟨responses, path, current, text, closed⟩ := s
    cases hs
    rfl
  | some chunks => exact ⟨[], foldl_status hdress chunks hs⟩

/-- One response is read and put behind the others. -/
theorem foldl_response (r : Response) (hs : s.current = none) :
    (r.events dress).foldl step s = { s with text := [], responses := s.responses ++ [r.read] } := by
  have hname : localName (dress "response") = "response" := hdress _ (by decide)
  -- what the response is after its address
  let addressed : DavResponse := { DavResponse.empty with href := trim (content r.href) }
  let inside : ReadState := { s with path := "response" :: s.path, text := [], current := some DavResponse.empty }
  have hstart : s.step (.start (dress "response") []) = inside := by
    simp [step, hname, inside]
  have hhref : (leaf dress "href" r.href).foldl step inside = { inside with current := some addressed } := by
    rw [foldl_leaf hdress (by decide) (by decide) (by decide) (by decide) r.href (s := inside) rfl]
    simp [closeIn, inside, addressed, DavResponse.empty]
  obtain ⟨t₁, hothers⟩ := foldl_others hdress r.others (s := { inside with current := some addressed }) rfl rfl r.named
  obtain ⟨t₂, hstatus⟩ := foldl_statuses hdress r.status (s := { inside with current := some addressed, text := t₁ }) rfl
  obtain ⟨t₃, hprops⟩ := foldl_propstats hdress r.propstats (s := { inside with
    text := t₂
    current := some { addressed with status := r.status.toList.foldl keepStatus addressed.status } }) rfl rfl
  have hread : ({ addressed with
      props := addressed.props ++ r.propstats.flatMap fun p => p.properties.filterMap DavProperty.valued
      resourceTypes :=
        addressed.resourceTypes ++ r.propstats.flatMap fun p => p.properties.flatMap DavProperty.kinds
      status := (r.propstats.map Propstat.status).foldl keepStatus
        (r.status.toList.foldl keepStatus addressed.status) } : DavResponse) = r.read := by
    simp [addressed, Response.read, DavResponse.empty, foldl_append]
  obtain ⟨t₄, herror⟩ := foldl_error hdress r.error (s := { inside with text := t₃, current := some r.read }) rfl rfl
  obtain ⟨t₅, hdescription⟩ := foldl_description hdress r.description
    (s := { inside with text := t₄, current := some r.read }) rfl rfl
  unfold Response.events wrap
  rw [foldl_cons, hstart]
  simp only [foldl_append]
  rw [hhref, hothers, hstatus, hprops]
  simp only [hread]
  rw [herror, hdescription]
  have hnamed : r.read.href.isEmpty = false := by
    rw [isEmpty_eq_false_iff]
    exact r.named
  simp [step, hname, close, hnamed, inside, ← hs]

theorem foldl_responses : ∀ (rs : List Response) {s : ReadState}, s.current = none →
    ∃ text, (rs.flatMap (Response.events dress)).foldl step s =
      { s with text := text, responses := s.responses ++ rs.map Response.read }
  | [], s, _ => ⟨s.text, by simp⟩
  | r :: rs, s, hs => by
    obtain ⟨text, hrest⟩ := foldl_responses rs (s := { s with text := [], responses := s.responses ++ [r.read] }) hs
    refine ⟨text, ?_⟩
    rw [flatMap_cons, foldl_append, foldl_response hdress r hs, hrest]
    simp [append_assoc]

end

/-! ## Reading a document -/

/-- The events of a document are read into its responses. -/
theorem foldl_events (doc : Multistatus) :
    ∃ text, doc.events.foldl ReadState.step ReadState.start = ⟨doc.read, [], none, text, true⟩ := by
  have hname : localName (doc.dress "multistatus") = "multistatus" := doc.dressed _ (by decide)
  unfold Multistatus.events
  split
  · rename_i hshort
    simp only [Multistatus.isShort, Bool.and_eq_true, List.isEmpty_iff] at hshort
    refine ⟨[], ?_⟩
    simp [ReadState.step, hname, ReadState.start, Multistatus.read, hshort.1.2]
  · refine ⟨[], ?_⟩
    obtain ⟨t₁, hresponses⟩ := foldl_responses doc.dressed doc.responses (s := ⟨[], ["multistatus"], none, [], false⟩) rfl
    have hdescription : ∃ text, (descriptionEvents doc.dress doc.description).foldl ReadState.step
        ⟨doc.read, ["multistatus"], none, t₁, false⟩ = ⟨doc.read, ["multistatus"], none, text, false⟩ := by
      cases doc.description with
      | none => exact ⟨t₁, rfl⟩
      | some chunks =>
        have hd : localName (doc.dress "responsedescription") = "responsedescription" := doc.dressed _ (by decide)
        refine ⟨[], ?_⟩
        simp [descriptionEvents, leaf, wrap, ReadState.step, hd, ReadState.foldl_chunks, ReadState.close]
    obtain ⟨t₂, hdescription⟩ := hdescription
    have hinner : doc.inner.foldl ReadState.step ⟨[], ["multistatus"], none, [], false⟩ =
        ⟨doc.read, ["multistatus"], none, t₂, false⟩ := by
      unfold Multistatus.inner
      rw [foldl_append, hresponses]
      exact hdescription
    have hstart : ReadState.start.step (.start (doc.dress "multistatus") []) =
        ⟨[], ["multistatus"], none, [], false⟩ := by simp [ReadState.step, hname, ReadState.start]
    unfold wrap
    rw [foldl_cons, foldl_append, hstart, hinner]
    simp [ReadState.step, hname, ReadState.close]

/-! ## A part of a document -/

/-- The event that could close the document. -/
def Closes (e : Event) : Prop :=
  ∃ raw, localName raw = "multistatus" ∧ (e = .end_ raw ∨ ∃ attrs, e = .empty raw attrs)

theorem closed_step {s : ReadState} {e : Event} (h : ¬ Closes e) : (s.step e).closed = s.closed := by
  cases e with
  | start raw attrs => rfl
  | text chunk => rfl
  | cdata chunk => rfl
  | other => rfl
  | empty raw attrs =>
    have hname : localName raw ≠ "multistatus" := fun he => h ⟨raw, he, .inr ⟨attrs, rfl⟩⟩
    simp only [ReadState.step, hname, false_and, if_false]
    split
    · rfl
    split
    · rfl
    split <;> rfl
  | end_ raw =>
    have hname : localName raw ≠ "multistatus" := fun he => h ⟨raw, he, .inl rfl⟩
    simp only [ReadState.step, hname, false_and, if_false]
    unfold ReadState.close
    split
    · rfl
    split <;> rfl

theorem closed_foldl {es : List Event} (h : ∀ e ∈ es, ¬ Closes e) {s : ReadState} :
    (es.foldl ReadState.step s).closed = s.closed := by
  induction es generalizing s with
  | nil => rfl
  | cons e es ih =>
    rw [foldl_cons, ih fun e' he' => h e' (mem_cons_of_mem _ he'), closed_step (h e mem_cons_self)]

section

variable {dress : String → String} (hdress : ∀ name, localName name = name → localName (dress name) = name)
include hdress

theorem not_closes_wrap {name : String} (hlocal : localName name = name) (hmulti : name ≠ "multistatus")
    {inner : List Event} (hinner : ∀ e ∈ inner, ¬ Closes e) : ∀ e ∈ wrap dress name inner, ¬ Closes e := by
  intro e he
  simp only [wrap, mem_cons, mem_append, not_mem_nil, or_false] at he
  rcases he with rfl | he | rfl
  · rintro ⟨raw, -, he | ⟨attrs, he⟩⟩ <;> cases he
  · exact hinner e he
  · rintro ⟨raw, hraw, he | ⟨attrs, he⟩⟩
    · cases he
      exact hmulti ((hdress name hlocal).symm.trans hraw)
    · cases he

omit hdress in
theorem not_closes_chunks (chunks : List Chunk) : ∀ e ∈ chunks.map Chunk.event, ¬ Closes e := by
  intro e he
  obtain ⟨c, -, rfl⟩ := mem_map.mp he
  rintro ⟨raw, -, he | ⟨attrs, he⟩⟩ <;> cases c <;> cases he

theorem not_closes_empties (kinds : List PlainName) :
    ∀ e ∈ kinds.map (fun kind => Event.empty (dress kind.text) []), ¬ Closes e := by
  intro e he
  obtain ⟨kind, -, rfl⟩ := mem_map.mp he
  rintro ⟨raw, hraw, he | ⟨attrs, he⟩⟩
  · cases he
  · cases he
    exact PlainName.ne (by decide) ((hdress _ kind.isLocal).symm.trans hraw)

theorem not_closes_leaf {name : String} (hlocal : localName name = name) (hmulti : name ≠ "multistatus")
    (chunks : List Chunk) : ∀ e ∈ leaf dress name chunks, ¬ Closes e :=
  not_closes_wrap hdress hlocal hmulti (not_closes_chunks chunks)

theorem not_closes_property (p : DavProperty) : ∀ e ∈ p.events dress, ¬ Closes e := by
  cases p with
  | value name chunks => exact not_closes_leaf hdress name.isLocal (PlainName.ne (by decide)) chunks
  | nested name kinds =>
    exact not_closes_wrap hdress name.isLocal (PlainName.ne (by decide)) (not_closes_empties hdress kinds)
  | absent name => exact not_closes_empties hdress [name]

theorem not_closes_propstat (p : Propstat) : ∀ e ∈ p.events dress, ¬ Closes e := by
  refine not_closes_wrap hdress (by decide) (by decide) ?_
  intro e he
  rcases mem_append.mp he with he | he
  · refine not_closes_wrap hdress (by decide) (by decide) ?_ e he
    intro e he
    obtain ⟨q, -, hq⟩ := mem_flatMap.mp he
    exact not_closes_property hdress q e hq
  · exact not_closes_leaf hdress (by decide) (by decide) _ e he

theorem not_closes_description (description : Option (List Chunk)) : ∀ e ∈ descriptionEvents dress description, ¬ Closes e := by
  cases description with
  | none => exact fun _ he => (by cases he)
  | some chunks => exact not_closes_leaf hdress (by decide) (by decide) chunks

theorem not_closes_response (r : Response) : ∀ e ∈ r.events dress, ¬ Closes e := by
  refine not_closes_wrap hdress (by decide) (by decide) ?_
  intro e he
  simp only [mem_append] at he
  rcases he with he | he | he | he | he | he
  · exact not_closes_leaf hdress (by decide) (by decide) _ e he
  · obtain ⟨chunks, -, hc⟩ := mem_flatMap.mp he
    exact not_closes_leaf hdress (by decide) (by decide) chunks e hc
  · cases hs : r.status with
    | none =>
      rw [hs] at he
      cases he
    | some chunks =>
      rw [hs] at he
      exact not_closes_leaf hdress (by decide) (by decide) chunks e he
  · obtain ⟨p, -, hp⟩ := mem_flatMap.mp he
    exact not_closes_propstat hdress p e hp
  · cases hs : r.error with
    | none =>
      rw [hs] at he
      cases he
    | some kinds =>
      rw [hs] at he
      exact not_closes_wrap hdress (by decide) (by decide) (not_closes_empties hdress kinds) e he
  · exact not_closes_description hdress _ e he

end

/-- What comes before the last event of a document does not close it. -/
theorem not_closes_init (doc : Multistatus) : ∀ e ∈ doc.events.dropLast, ¬ Closes e := by
  unfold Multistatus.events
  split
  · exact fun _ he => (by cases he)
  · intro e he
    have hsplit : (wrap doc.dress "multistatus" doc.inner).dropLast =
        .start (doc.dress "multistatus") [] :: doc.inner := by
      unfold wrap
      rw [← cons_append, dropLast_concat]
    rw [hsplit] at he
    rcases mem_cons.mp he with rfl | he
    · rintro ⟨raw, -, he | ⟨attrs, he⟩⟩ <;> cases he
    · rcases mem_append.mp he with he | he
      · obtain ⟨r, -, hr⟩ := mem_flatMap.mp he
        exact not_closes_response doc.dressed r e hr
      · exact not_closes_description doc.dressed _ e he

/-! ## What arrives -/

/-- What is relied on of `quick_xml`: from `sent` it reads the events of the document, and from a part of it
the first of these, perhaps with a part of a text behind them, or it stops at an error. -/
structure Sends (xml : XmlReader) (sent : Str) (doc : Multistatus) : Prop where
  whole : ∃ es, xml sent = (es, false) ∧ es.filter (fun e => e != .other) = doc.events
  part : ∀ body, body <+: sent → (xml body).2 = true ∨ ∃ es more rest, (xml sent).1 = es ++ more ∧
    xml body = (es ++ rest, false) ∧ ∀ e ∈ rest, ∃ chunk, e = .text chunk

/-- Every event of the document arrived. -/
def Arrived (xml : XmlReader) (body : Str) (doc : Multistatus) : Prop :=
  ∃ es rest, xml body = (es ++ rest, false) ∧ es.filter (fun e => e != .other) = doc.events ∧
    ∀ e ∈ rest, ∃ chunk, e = .text chunk

theorem foldl_filter_other : ∀ (es : List Event) (s : ReadState),
    (es.filter (fun e => e != .other)).foldl ReadState.step s = es.foldl ReadState.step s
  | [], _ => rfl
  | e :: es, s => by
    by_cases he : e = .other
    · subst he
      exact foldl_filter_other es s
    · simp [he, foldl_filter_other es]

theorem foldl_texts : ∀ {rest : List Event} (s : ReadState), (∀ e ∈ rest, ∃ chunk, e = .text chunk) →
    ∃ text, rest.foldl ReadState.step s = { s with text := text }
  | [], s, _ => ⟨s.text, rfl⟩
  | e :: rest, s, h => by
    obtain ⟨chunk, rfl⟩ := h e mem_cons_self
    obtain ⟨text, hrest⟩ := foldl_texts (s.step (.text chunk)) fun e' he' => h e' (mem_cons_of_mem _ he')
    exact ⟨text, hrest⟩

/-- A document that arrived is read. -/
theorem read_whole {xml : XmlReader} {body : Str} {doc : Multistatus} (h : Arrived xml body doc) :
    readMultistatus xml body = (doc.read, true) := by
  obtain ⟨es, rest, hxml, hes, hrest⟩ := h
  obtain ⟨text, hdoc⟩ := foldl_events doc
  rw [← hes, foldl_filter_other] at hdoc
  obtain ⟨text', htexts⟩ := foldl_texts (es.foldl ReadState.step ReadState.start) hrest
  unfold readMultistatus
  rw [hxml]
  simp only [foldl_append]
  rw [htexts, hdoc]
  rfl

/-- Of one that did not arrive nothing is taken. -/
theorem read_part {xml : XmlReader} {sent body : Str} {doc : Multistatus} (h : Sends xml sent doc)
    (hbody : body <+: sent) (hpart : ¬ Arrived xml body doc) : (readMultistatus xml body).2 = false := by
  obtain ⟨all, hall, hevents⟩ := h.whole
  unfold readMultistatus
  rcases h.part body hbody with herr | ⟨es, more, rest, hsplit, hxml, hrest⟩
  · simp [herr]
  · rw [hall] at hsplit
    have hall' : all = es ++ more := hsplit
    rw [hall', filter_append] at hevents
    have hmore : more.filter (fun e => e != .other) ≠ [] := by
      intro he
      rw [he, append_nil] at hevents
      exact hpart ⟨es, rest, hxml, hevents, hrest⟩
    have hopen : ∀ e ∈ es ++ rest, ¬ Closes e := by
      intro e he
      rcases mem_append.mp he with he | he
      · by_cases hother : e = .other
        · rintro ⟨raw, -, hc | ⟨attrs, hc⟩⟩ <;> cases hother ▸ hc
        · have hin : e ∈ doc.events.dropLast := by
            rw [← hevents, dropLast_append_of_ne_nil hmore]
            exact mem_append_left _ (mem_filter.mpr ⟨he, bne_iff_ne.mpr hother⟩)
          exact not_closes_init doc e hin
      · obtain ⟨chunk, rfl⟩ := hrest e he
        rintro ⟨raw, -, hc | ⟨attrs, hc⟩⟩ <;> cases hc
    rw [hxml]
    show (((es ++ rest).foldl ReadState.step ReadState.start).closed && !false) = false
    rw [closed_foldl hopen]
    rfl

end Oreneta.Dav
