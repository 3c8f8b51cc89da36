import Oreneta.Lib.Base64
import Oreneta.Lib.Utf16

/-!
# Modified UTF-7 for IMAP mailbox names

`utf7.rs`: the names a server without UTF8=ACCEPT reports and accepts (RFC 3501 §5.1.3).

* `decode`, `decodeFrom`, `decodeRun` — a name as the reader sees it; malformed names stay as they are.
* `encode`, `encodeFrom`, `flush` — a name for the wire; ASCII names without `&` are not encoded at all.
* `Wire` — what a name on the wire is made of.
* `decode_encode` — every name is read back from its encoding.
* `encode_wire_iff` — the encoding is of the wire, and what the loop gives, exactly if the name is not one
  of the ASCII names without `&` in which a control character stands.
-/

namespace Oreneta.Utf7

open Text Base64 List

def slash (c : Char) : Char := if c = ',' then '/' else c

def comma (c : Char) : Char := if c = '/' then ',' else c

/-- The 16-bit units of octets (`chunks_exact(2)`, `u16::from_be_bytes`). -/
def pairs : List Nat → List Nat
  | x :: y :: rest => (x * 256 + y) :: pairs rest
  | _ => []

/-- `u16::to_be_bytes` of each unit. -/
def octets (units : List Nat) : List Nat := units.flatMap (fun u => [u / 256, u % 256])

/-- Decodes one `&…-` run: modified BASE64 (`,` for `/`, no padding) over UTF-16BE. -/
def decodeRun (run : Str) : Option Str :=
  (Base64.decode standard (run.map slash)).bind (fun bytes =>
    if bytes.length % 2 ≠ 0 then none else Utf16.decode (pairs bytes))

/-- The decoded text, or none if a run is not ended or cannot be decoded. -/
def decodeFrom (rest : Str) : Option Str :=
  match _h : splitOnce '&' rest with
  | none => some rest
  | some (literal, after) =>
    match _h' : splitOnce '-' after with
    | none => none
    | some (run, rest') =>
      (if run.isEmpty then some ['&'] else decodeRun run).bind (fun text =>
        (decodeFrom rest').map (fun more => literal ++ text ++ more))
termination_by rest.length
decreasing_by
  rw [(splitOnce_some _h).1, (splitOnce_some _h').1]
  simp only [length_append, length_cons]
  omega

/-- Decodes a mailbox name for display. -/
def decode (name : Str) : Str := if '&' ∉ name then name else (decodeFrom name).getD name

/-- A character that stands for itself (`' '..='~'`). -/
def printable (c : Char) : Bool := 0x20 ≤ c.toNat && c.toNat ≤ 0x7E

/-- `char::is_ascii`. -/
def isAscii (c : Char) : Bool := c.toNat < 0x80

/-- What is pending, as a run. -/
def flush (pending : List Nat) : Str :=
  if pending.isEmpty then []
  else '&' :: (Base64.encode standard (octets pending)).map comma ++ ['-']

/-- The loop of `encode`, from a character on and with units pending. -/
def encodeFrom : Str → List Nat → Str
  | [], pending => flush pending
  | c :: cs, pending =>
    if c = '&' then flush pending ++ ['&', '-'] ++ encodeFrom cs []
    else if printable c then flush pending ++ [c] ++ encodeFrom cs []
    else encodeFrom cs (pending ++ Utf16.units c)

/-- Encodes a mailbox name for the wire. -/
def encode (name : Str) : Str :=
  if name.all isAscii && !name.contains '&' then name else encodeFrom name []

/-- A name on the wire: printable ASCII characters, with `&` only before a run of the modified alphabet or
before the `-` that makes it an ampersand. -/
inductive Wire : Str → Prop
  | nil : Wire []
  | literal {c : Char} {rest : Str} (hc : printable c = true) (hne : c ≠ '&') (h : Wire rest) : Wire (c :: rest)
  | shifted {run rest : Str} (hrun : ∀ c ∈ run, printable c = true ∧ c ≠ '&' ∧ c ≠ '-') (h : Wire rest) :
      Wire ('&' :: run ++ '-' :: rest)

/-! ## Runs -/

theorem pairs_octets : ∀ {units : List Nat}, pairs (octets units) = units
  | [] => rfl
  | u :: units => by
    have hu : u / 256 * 256 + u % 256 = u := by omega
    have ih : pairs (octets units) = units := pairs_octets
    unfold octets at ih ⊢
    rw [flatMap_cons, cons_append, cons_append, nil_append, pairs, hu, ih]

theorem length_octets (units : List Nat) : (octets units).length = 2 * units.length := by
  unfold octets
  induction units with
  | nil => rfl
  | cons u units ih =>
    rw [flatMap_cons, length_append, ih, length_cons]
    simp only [length_cons, length_nil]
    omega

theorem octets_lt {units : List Nat} (h : ∀ u ∈ units, u < 0x10000) : ∀ n ∈ octets units, Octet n := by
  intro n hn
  obtain ⟨u, hu, hn⟩ := mem_flatMap.mp hn
  have := h u hu
  simp only [mem_cons, not_mem_nil, or_false] at hn
  unfold Octet
  rcases hn with hn | hn <;> omega

theorem symbol_plain {n : Nat} (h : n < 64) : comma (standard.symbol n) ≠ '-' ∧
    comma (standard.symbol n) ≠ '&' ∧ printable (comma (standard.symbol n)) = true ∧
    slash (comma (standard.symbol n)) = standard.symbol n := by
  have hall : ∀ k ∈ List.range 64, comma (standard.symbol k) ≠ '-' ∧
      comma (standard.symbol k) ≠ '&' ∧ printable (comma (standard.symbol k)) = true ∧
      slash (comma (standard.symbol k)) = standard.symbol k := by decide
  exact hall n (mem_range.mpr h)

section Run

variable {units : List Nat}

/-- The characters between `&` and `-`. -/
def runOf (units : List Nat) : Str := (Base64.encode standard (octets units)).map comma

theorem flush_cons (h : units ≠ []) : flush units = '&' :: runOf units ++ ['-'] := by
  unfold flush runOf
  rw [if_neg (by simpa using h)]

theorem mem_runOf (h : ∀ u ∈ units, u < 0x10000) {c : Char} (hc : c ∈ runOf units) : printable c = true ∧ c ≠ '&' ∧ c ≠ '-' := by
  obtain ⟨x, hx, rfl⟩ := mem_map.mp hc
  obtain ⟨n, hn, rfl⟩ := mem_encode _ (octets_lt h) hx
  obtain ⟨h1, h2, h3, -⟩ := symbol_plain hn
  exact ⟨h3, h2, h1⟩

theorem runOf_ne_nil (h : units ≠ []) : runOf units ≠ [] := by
  have hoct : octets units ≠ [] := by
    intro hnil
    have hlen := length_octets units
    rw [hnil] at hlen
    have hpos := length_pos_iff.mpr h
    simp only [length_nil] at hlen
    omega
  unfold runOf
  simpa using encode_ne_nil standard hoct

theorem map_slash_runOf (h : ∀ u ∈ units, u < 0x10000) : (runOf units).map slash = Base64.encode standard (octets units) := by
  unfold runOf
  rw [map_map]
  have hid : ∀ c ∈ Base64.encode standard (octets units), (slash ∘ comma) c = id c := by
    intro c hc
    obtain ⟨n, hn, rfl⟩ := mem_encode _ (octets_lt h) hc
    exact (symbol_plain hn).2.2.2
  rw [map_congr_left hid, map_id]

end Run

theorem units_bound (text : Str) : ∀ u ∈ text.flatMap Utf16.units, u < 0x10000 := by
  intro u hu
  obtain ⟨c, -, hu⟩ := mem_flatMap.mp hu
  exact Utf16.units_lt hu

/-- A run is decoded to the text it was made of. -/
theorem decodeRun_runOf (text : Str) : decodeRun (runOf (text.flatMap Utf16.units)) = some text := by
  have hbound := units_bound text
  have heven : ¬ (octets (text.flatMap Utf16.units)).length % 2 ≠ 0 := by
    rw [length_octets]
    omega
  unfold decodeRun
  rw [map_slash_runOf hbound, Base64.decode_encode _ (octets_lt hbound), Option.bind_some, if_neg heven,
    pairs_octets, Utf16.decode_units]

/-! ## Decoding what stands in front -/

theorem decodeFrom_plain {rest : Str} (h : '&' ∉ rest) : decodeFrom rest = some rest := by
  rw [decodeFrom]
  split
  · rfl
  · rename_i hs
    rw [splitOnce_eq_none.mpr h] at hs
    cases hs

/-- The first run of a name, with what stands before and after it. -/
theorem decodeFrom_run {before run : Str} (more : Str) (hbefore : '&' ∉ before) (hrun : '-' ∉ run) :
    decodeFrom (before ++ '&' :: (run ++ '-' :: more)) =
      (if run.isEmpty then some ['&'] else decodeRun run).bind (fun text =>
        (decodeFrom more).map (fun s => before ++ text ++ s)) := by
  rw [decodeFrom]
  split
  · rename_i hs
    rw [splitOnce_append _ hbefore] at hs
    cases hs
  · rename_i literal after hs
    rw [splitOnce_append _ hbefore] at hs
    cases hs
    split
    · rename_i hs
      rw [splitOnce_append _ hrun] at hs
      cases hs
    · rename_i hs
      rw [splitOnce_append _ hrun] at hs
      cases hs
      rfl

theorem decodeFrom_open {before after : Str} (hbefore : '&' ∉ before) (hafter : '-' ∉ after) :
    decodeFrom (before ++ '&' :: after) = none := by
  rw [decodeFrom]
  split
  · rename_i hs
    rw [splitOnce_append _ hbefore] at hs
    cases hs
  · rename_i literal after' hs
    rw [splitOnce_append _ hbefore] at hs
    cases hs
    split
    · rfl
    · rename_i hs
      rw [splitOnce_eq_none.mpr hafter] at hs
      cases hs

theorem decodeFrom_literal {c : Char} (hc : c ≠ '&') (rest : Str) :
    decodeFrom (c :: rest) = (decodeFrom rest).map (fun s => c :: s) := by
  have hcons : ∀ {s : Str}, '&' ∉ s → '&' ∉ c :: s := fun hs hm =>
    (mem_cons.mp hm).elim (fun he => hc he.symm) hs
  cases hs : splitOnce '&' rest with
  | none =>
    have hn := splitOnce_eq_none.mp hs
    rw [decodeFrom_plain hn, decodeFrom_plain (hcons hn), Option.map_some]
  | some p =>
    obtain ⟨before, after⟩ := p
    obtain ⟨rfl, hbefore⟩ := splitOnce_some hs
    rw [← cons_append]
    cases hs' : splitOnce '-' after with
    | none =>
      have hn := splitOnce_eq_none.mp hs'
      rw [decodeFrom_open hbefore hn, decodeFrom_open (hcons hbefore) hn, Option.map_none]
    | some q =>
      obtain ⟨run, more⟩ := q
      obtain ⟨rfl, hrun⟩ := splitOnce_some hs'
      rw [decodeFrom_run more hbefore hrun, decodeFrom_run more (hcons hbefore) hrun, Option.map_bind]
      congr 1
      funext text
      rw [Function.comp_apply, Option.map_map]
      rfl

theorem decodeFrom_ampersand (rest : Str) : decodeFrom ('&' :: '-' :: rest) = (decodeFrom rest).map (fun s => '&' :: s) := by
  have h := @decodeFrom_run [] [] rest not_mem_nil not_mem_nil
  rw [nil_append, nil_append] at h
  rw [h]
  rfl

/-- A run of pending units in front of what is already written. -/
theorem decodeFrom_flush (text rest : Str) :
    decodeFrom (flush (text.flatMap Utf16.units) ++ rest) = (decodeFrom rest).map (fun s => text ++ s) := by
  cases text with
  | nil => simp [flush]
  | cons c text =>
    have hne : (c :: text).flatMap Utf16.units ≠ [] := by
      rw [flatMap_cons]
      simp [Utf16.units_ne_nil]
    have hrun : '-' ∉ runOf ((c :: text).flatMap Utf16.units) := fun hm =>
      (mem_runOf (units_bound _) hm).2.2 rfl
    have hempty : (runOf ((c :: text).flatMap Utf16.units)).isEmpty = false := by
      simpa using runOf_ne_nil hne
    have h := @decodeFrom_run [] _ rest not_mem_nil hrun
    rw [hempty, decodeRun_runOf] at h
    rw [flush_cons hne]
    simpa using h

/-! ## Names -/

/-- What the loop writes is decoded to what is pending and what comes after it. -/
theorem decodeFrom_encodeFrom : ∀ cs text : Str, decodeFrom (encodeFrom cs (text.flatMap Utf16.units)) = some (text ++ cs)
  | [], text => by
    have h := decodeFrom_flush text []
    rw [append_nil, decodeFrom_plain not_mem_nil] at h
    exact h
  | c :: cs, text => by
    have ih := decodeFrom_encodeFrom cs []
    rw [flatMap_nil, nil_append] at ih
    rw [encodeFrom]
    split
    · rename_i hc
      rw [append_assoc, decodeFrom_flush, cons_append, cons_append, nil_append, decodeFrom_ampersand, ih, hc]
      rfl
    · rename_i hc
      split
      · rw [append_assoc, decodeFrom_flush, singleton_append, decodeFrom_literal hc, ih]
        rfl
      · have hpending : text.flatMap Utf16.units ++ Utf16.units c = (text ++ [c]).flatMap Utf16.units := by simp
        rw [hpending, decodeFrom_encodeFrom cs (text ++ [c]), append_assoc]
        rfl

/-- **Every name is read back** from its encoding. -/
theorem decode_encode (name : Str) : decode (encode name) = name := by
  have hloop := decodeFrom_encodeFrom name []
  rw [flatMap_nil, nil_append] at hloop
  unfold encode
  split
  · rename_i h
    rw [Bool.and_eq_true, Bool.not_eq_true', contains_eq_mem, decide_eq_false_iff_not] at h
    unfold decode
    rw [if_pos h.2]
  · unfold decode
    split
    · rename_i h
      rw [decodeFrom_plain h] at hloop
      exact Option.some.inj hloop
    · rw [hloop, Option.getD_some]

theorem encode_injective : Function.Injective encode := fun a b h => by
  rw [← decode_encode a, h, decode_encode]

/-! ## What is on the wire -/

theorem Wire.printable {name : Str} (h : Wire name) : ∀ c ∈ name, Utf7.printable c = true := by
  induction h with
  | nil => simp
  | literal hc _ _ ih =>
    intro x hx
    rcases mem_cons.mp hx with rfl | hx
    · exact hc
    · exact ih x hx
  | shifted hrun _ ih =>
    intro x hx
    rcases mem_cons.mp hx with rfl | hx
    · decide
    · rcases mem_append.mp hx with hx | hx
      · exact (hrun x hx).1
      · rcases mem_cons.mp hx with rfl | hx
        · decide
        · exact ih x hx

theorem wire_plain : ∀ {name : Str}, '&' ∉ name → (∀ c ∈ name, printable c = true) → Wire name
  | [], _, _ => .nil
  | c :: name, h, hp => by
    have hc : c ≠ '&' := fun he => h (he ▸ mem_cons_self)
    have hrest : '&' ∉ name := fun hm => h (mem_cons_of_mem _ hm)
    exact .literal (hp c mem_cons_self) hc (wire_plain hrest fun x hx => hp x (mem_cons_of_mem _ hx))

theorem wire_flush {units : List Nat} {rest : Str} (hunits : ∀ u ∈ units, u < 0x10000) (h : Wire rest) :
    Wire (flush units ++ rest) := by
  cases units with
  | nil => exact h
  | cons u units =>
    rw [flush_cons (by simp), append_assoc, singleton_append]
    exact .shifted (fun c hc => mem_runOf hunits hc) h

/-- What the loop writes is of the wire. -/
theorem wire_encodeFrom : ∀ (cs : Str) {units : List Nat}, (∀ u ∈ units, u < 0x10000) → Wire (encodeFrom cs units)
  | [], units, h => by
    have := wire_flush h .nil
    rwa [append_nil] at this
  | c :: cs, units, h => by
    have ih := @wire_encodeFrom cs [] (by simp)
    rw [encodeFrom]
    split
    · rw [append_assoc]
      exact wire_flush h (@Wire.shifted [] _ (by simp) ih)
    · rename_i hc
      split
      · rename_i hp
        rw [append_assoc]
        exact wire_flush h (.literal hp hc ih)
      · refine wire_encodeFrom cs fun u hu => ?_
        rcases mem_append.mp hu with hu | hu
        · exact h u hu
        · exact Utf16.units_lt hu

/-- The loop leaves a name of printable characters as it is. -/
theorem encodeFrom_printable : ∀ {cs : Str}, '&' ∉ cs → (∀ c ∈ cs, printable c = true) → encodeFrom cs [] = cs
  | [], _, _ => rfl
  | c :: cs, h, hp => by
    have hc : c ≠ '&' := fun he => h (he ▸ mem_cons_self)
    have hrest : '&' ∉ cs := fun hm => h (mem_cons_of_mem _ hm)
    rw [encodeFrom, if_neg hc, if_pos (hp c mem_cons_self),
      encodeFrom_printable hrest fun x hx => hp x (mem_cons_of_mem _ hx)]
    rfl

/-- **Names on the wire**: every name is read back from its encoding, and the encoding is of the wire and
what the loop gives exactly if the name has an ampersand, a character beyond ASCII, or no control
character. -/
theorem encode_wire_iff (name : Str) : (∀ other, encode other = encode name → other = name) ∧
    (decode (encode name) = name ∧ Wire (encode name) ∧ encode name = encodeFrom name [] ↔
      '&' ∈ name ∨ (∃ c ∈ name, isAscii c = false) ∨ ∀ c ∈ name, printable c = true) := by
  refine ⟨fun _ h => encode_injective h, ?_⟩
  by_cases hearly : (name.all isAscii && !name.contains '&') = true
  · -- the early return
    have hencode : encode name = name := if_pos hearly
    rw [Bool.and_eq_true, Bool.not_eq_true', contains_eq_mem, decide_eq_false_iff_not, all_eq_true] at hearly
    obtain ⟨hascii, hamp⟩ := hearly
    rw [decode_encode, hencode]
    constructor
    · rintro ⟨-, hwire, -⟩
      exact .inr (.inr hwire.printable)
    · rintro (hamp' | ⟨c, hc, hbeyond⟩ | hprintable)
      · exact absurd hamp' hamp
      · rw [hascii c hc] at hbeyond
        cases hbeyond
      · exact ⟨rfl, wire_plain hamp hprintable, (encodeFrom_printable hamp hprintable).symm⟩
  · have hencode : encode name = encodeFrom name [] := if_neg hearly
    refine iff_of_true ⟨decode_encode name, ?_, hencode⟩ ?_
    · rw [hencode]
      exact wire_encodeFrom name (by simp)
    · rw [Bool.and_eq_true, not_and_or, Bool.not_eq_true', Bool.not_eq_false, contains_eq_mem,
        decide_eq_true_eq, Bool.not_eq_true, all_eq_false] at hearly
      rcases hearly with ⟨c, hc, hbeyond⟩ | hamp
      · exact .inr (.inl ⟨c, hc, Bool.not_eq_true _ ▸ hbeyond⟩)
      · exact .inl hamp

/-- A tab goes to the server as it is, where the loop writes `a&AAk-b`. -/
theorem tab_not_wire : ¬ Wire (encode ['a', '\t', 'b']) ∧ encodeFrom ['a', '\t', 'b'] [] = "a&AAk-b" := by
  refine ⟨fun h => ?_, by decide⟩
  have := h.printable '\t' (by decide)
  exact absurd this (by decide)

end Oreneta.Utf7
