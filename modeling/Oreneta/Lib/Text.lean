import Mathlib.Algebra.Order.Ring.Int
import Mathlib.Data.Char
import Mathlib.Data.List.DropRight
import Mathlib.Data.List.Lex

/-!
# Text as a list of characters

A text is the list of its characters (Unicode scalar values); the operations of `str` the program
uses, and facts about texts that are built from parts and read back.

* `isWhitespace`, `trim`, `asciiLower`, `byteLength`, `contains`, `replace`, `join` — as `char::is_whitespace` (the
  `White_Space` property), `str::trim`, `to_ascii_lowercase`, `str::contains`, `str::replace` with a
  `char` pattern, and `[_]::join`.
* `stripPrefix` — `str::strip_prefix`.
* `append_sep_inj` — what stands before and after the last separator is determined.
* `splitOnce`, `rsplitOnce` — `str::split_once` and `str::rsplit_once`; `splitOnce_append`, `rsplitOnce_append`.
-/

namespace Oreneta

open List

abbrev Str := List Char

instance : Coe String Str := ⟨String.toList⟩

instance : LawfulBEq Str := inferInstanceAs (LawfulBEq (List Char))

instance : LawfulBEq (Str × Str) := inferInstance

namespace Text

/-- `char::is_whitespace`. -/
def isWhitespace (c : Char) : Bool :=
  (0x9 ≤ c.toNat && c.toNat ≤ 0xD) || c.toNat = 0x20 || c.toNat = 0x85 || c.toNat = 0xA0 ||
    c.toNat = 0x1680 || (0x2000 ≤ c.toNat && c.toNat ≤ 0x200A) || c.toNat = 0x2028 ||
    c.toNat = 0x2029 || c.toNat = 0x202F || c.toNat = 0x205F || c.toNat = 0x3000

def trimStart (s : Str) : Str := s.dropWhile isWhitespace

def trimEnd (s : Str) : Str := s.rdropWhile isWhitespace

/-- `str::trim`. -/
def trim (s : Str) : Str := trimEnd (trimStart s)

/-- `to_ascii_lowercase`, and SQLite's `lower`. -/
def asciiLower (s : Str) : Str := s.map Char.toLower

/-- `str::len`, in octets. -/
def byteLength (s : Str) : Nat := (s.map Char.utf8Size).sum

variable {c : Char}

theorem isWhitespace_of_isDigit (h : c.isDigit = true) : isWhitespace c = false := by
  have hn : 48 ≤ c.toNat ∧ c.toNat ≤ 57 := by
    simpa [Char.isDigit, UInt32.le_iff_toNat_le] using h
  unfold isWhitespace
  simp only [Bool.or_eq_false_iff, Bool.and_eq_false_iff, decide_eq_false_iff_not]
  omega

theorem isAlpha_eq (c : Char) : c.isAlpha = (c.isUpper || c.isLower) := rfl

theorem isUpper_eq (c : Char) : c.isUpper = decide (c.val ≥ 'A'.val ∧ c.val ≤ 'Z'.val) := rfl

theorem isLower_eq (c : Char) : c.isLower = (decide (c.val ≥ 'a'.val) && decide (c.val ≤ 'z'.val)) := rfl

theorem isWhitespace_of_isAlpha (h : c.isAlpha = true) : isWhitespace c = false := by
  have hn : (65 ≤ c.toNat ∧ c.toNat ≤ 90) ∨ (97 ≤ c.toNat ∧ c.toNat ≤ 122) := by
    simpa [isAlpha_eq, isUpper_eq, isLower_eq, UInt32.le_iff_toNat_le] using h
  unfold isWhitespace
  simp only [Bool.or_eq_false_iff, Bool.and_eq_false_iff, decide_eq_false_iff_not]
  omega

/-- No capital letter is left. -/
theorem isUpper_toLower (c : Char) : c.toLower.isUpper = false := by
  delta Char.toLower
  split
  · rename_i h
    have hlo : 65 ≤ c.val.toNat := h.1
    have hhi : c.val.toNat ≤ 90 := h.2
    have hshift : ('a'.val - 'A'.val).toNat = 32 := by decide
    have hz : 'Z'.val.toNat = 90 := rfl
    rw [isUpper_eq, decide_eq_false_iff_not]
    rintro ⟨-, hle⟩
    rw [UInt32.le_iff_toNat_le, UInt32.toNat_add] at hle
    omega
  · rename_i h
    exact Bool.eq_false_iff.mpr fun hu => h (of_decide_eq_true hu)

theorem toLower_of_not_isUpper (h : c.isUpper = false) : c.toLower = c := by
  delta Char.toLower
  rw [dif_neg]
  intro hu
  have : c.isUpper = true := decide_eq_true hu
  rw [h] at this
  cases this

theorem asciiLower_asciiLower (s : Str) : asciiLower (asciiLower s) = asciiLower s := by
  unfold asciiLower
  rw [map_map]
  exact map_congr_left fun c _ => toLower_of_not_isUpper (isUpper_toLower c)

theorem isWhitespace_toLower (c : Char) : isWhitespace c.toLower = isWhitespace c := by
  by_cases hu : c.isUpper = true
  · have hlow : c.toLower.isLower = true := by
      delta Char.toLower
      rw [dif_pos (of_decide_eq_true hu)]
      have h : 'A'.val ≤ c.val ∧ c.val ≤ 'Z'.val := of_decide_eq_true hu
      have hshift : ('a'.val - 'A'.val).toNat = 32 := by decide
      simp only [UInt32.le_iff_toNat_le] at h
      have ha : 'A'.val.toNat = 65 := rfl
      have hz : 'Z'.val.toNat = 90 := rfl
      have ha' : 'a'.val.toNat = 97 := rfl
      have hz' : 'z'.val.toNat = 122 := rfl
      rw [isLower_eq, Bool.and_eq_true, decide_eq_true_iff, decide_eq_true_iff]
      simp only [UInt32.le_iff_toNat_le, ge_iff_le, UInt32.toNat_add]
      omega
    rw [isWhitespace_of_isAlpha (by rw [isAlpha_eq, hlow, Bool.or_true]),
      isWhitespace_of_isAlpha (by rw [isAlpha_eq, hu, Bool.true_or])]
  · rw [toLower_of_not_isUpper (Bool.eq_false_iff.mpr hu)]

/-- `str::replace` with a character pattern. -/
def replace (c : Char) (with_ : Str) (s : Str) : Str := s.flatMap (fun x => if x = c then with_ else [x])

/-- `[_]::join`. -/
def join (sep : Str) : List Str → Str
  | [] => []
  | [s] => s
  | s :: t :: rest => s ++ sep ++ join sep (t :: rest)

/-- Whether all characters of a text are of a kind is decided by reading it. -/
instance (priority := high) decidableForallMem (q : Char → Prop) [DecidablePred q] (s : List Char) :
    Decidable (∀ c ∈ s, q c) := List.decidableBAll q s

instance (priority := high) decidableForallMemOption (q : Char → Prop) [DecidablePred q] (o : Option Char) :
    Decidable (∀ c ∈ o, q c) := Option.decidableForallMem o

/-- What is left after a prefix (`str::strip_prefix`). -/
def stripPrefix (start s : Str) : Option Str :=
  if start.isPrefixOf s then some (s.drop start.length) else none

theorem stripPrefix_append (start rest : Str) : stripPrefix start (start ++ rest) = some rest := by
  unfold stripPrefix
  rw [if_pos (List.isPrefixOf_iff_prefix.mpr (prefix_append start rest)), drop_left]

theorem stripPrefix_some {start s rest : Str} (h : stripPrefix start s = some rest) : s = start ++ rest := by
  unfold stripPrefix at h
  split at h
  · rename_i hp
    obtain ⟨tail, rfl⟩ := List.isPrefixOf_iff_prefix.mp hp
    rw [drop_left] at h
    rw [Option.some.inj h]
  · cases h

/-- Whether `sub` stands somewhere in `s` (`str::contains`). -/
def contains : List Char → List Char → Bool
  | [], sub => sub.isEmpty
  | c :: s, sub => sub.isPrefixOf (c :: s) || contains s sub

/-- What stands before the first separator and what stands after it. -/
theorem append_first_inj {c : Char} : ∀ {a a' b b' : List Char}, c ∉ a → c ∉ a' → a ++ c :: b = a' ++ c :: b' → a = a' ∧ b = b'
  | [], [], _, _, _, _, he => ⟨rfl, (List.cons.inj he).2⟩
  | [], x :: a', _, _, _, ha', he => absurd ((List.cons.inj he).1 ▸ mem_cons_self) ha'
  | y :: a, [], _, _, ha, _, he => absurd ((List.cons.inj he).1 ▸ mem_cons_self) ha
  | y :: a, x :: a', _, _, ha, ha', he => by
    obtain ⟨hxy, htail⟩ := List.cons.inj he
    obtain ⟨haa, hb⟩ := append_first_inj (fun hm => ha (mem_cons_of_mem _ hm)) (fun hm => ha' (mem_cons_of_mem _ hm)) htail
    exact ⟨by rw [hxy, haa], hb⟩

/-- What stands before the last separator and what stands after it, when the latter has none. -/
theorem append_sep_inj {a a' b b' : List Char} (hb : c ∉ b) (hb' : c ∉ b')
    (h : a ++ c :: b = a' ++ c :: b') : a = a' ∧ b = b' := by
  have hr : b.reverse ++ c :: a.reverse = b'.reverse ++ c :: a'.reverse := by
    have := congrArg List.reverse h
    simpa using this
  obtain ⟨h1, h2⟩ := append_first_inj (by simpa using hb) (by simpa using hb') hr
  exact ⟨reverse_injective h2, reverse_injective h1⟩

/-- `str::split_once` with a character pattern: what stands before and after its first place. -/
def splitOnce (c : Char) : Str → Option (Str × Str)
  | [] => none
  | x :: s => if x = c then some ([], s) else (splitOnce c s).map (fun p => (x :: p.1, p.2))

theorem splitOnce_cons_of_ne {x : Char} (h : x ≠ c) (s : Str) :
    splitOnce c (x :: s) = (splitOnce c s).map (fun p => (x :: p.1, p.2)) := by rw [splitOnce, if_neg h]

theorem splitOnce_append {c : Char} : ∀ {a : Str} (b : Str), c ∉ a → splitOnce c (a ++ c :: b) = some (a, b)
  | [], b, _ => by rw [nil_append, splitOnce, if_pos rfl]
  | x :: a, b, h => by
    have hx : x ≠ c := fun he => h (he ▸ mem_cons_self)
    have ha : c ∉ a := fun hm => h (mem_cons_of_mem _ hm)
    rw [cons_append, splitOnce_cons_of_ne hx, splitOnce_append b ha, Option.map_some]

theorem splitOnce_eq_none {c : Char} : ∀ {s : Str}, splitOnce c s = none ↔ c ∉ s
  | [] => by simp [splitOnce]
  | x :: s => by
    by_cases hx : x = c
    · simp [splitOnce, hx]
    · rw [splitOnce_cons_of_ne hx, Option.map_eq_none_iff, splitOnce_eq_none, mem_cons, not_or]
      exact ⟨fun h => ⟨fun he => hx he.symm, h⟩, fun h => h.2⟩

theorem splitOnce_some {c : Char} : ∀ {s a b : Str}, splitOnce c s = some (a, b) → s = a ++ c :: b ∧ c ∉ a
  | [], a, b, h => by cases h
  | x :: s, a, b, h => by
    by_cases hx : x = c
    · rw [splitOnce, if_pos hx] at h
      cases h
      exact ⟨by rw [hx]; rfl, not_mem_nil⟩
    · rw [splitOnce_cons_of_ne hx, Option.map_eq_some_iff] at h
      obtain ⟨⟨a', b'⟩, hs, he⟩ := h
      cases he
      obtain ⟨rfl, hn⟩ := splitOnce_some hs
      refine ⟨rfl, fun hm => ?_⟩
      rcases mem_cons.mp hm with he | hm
      · exact hx he.symm
      · exact hn hm

/-- `str::rsplit_once` with a character pattern: what stands before and after its last place. -/
def rsplitOnce (c : Char) (s : Str) : Option (Str × Str) :=
  match s.reverse.dropWhile (fun x => x ≠ c) with
  | _ :: before => some (before.reverse, (s.reverse.takeWhile (fun x => x ≠ c)).reverse)
  | [] => none

theorem rsplitOnce_append {a b : Str} (hb : c ∉ b) : rsplitOnce c (a ++ c :: b) = some (a, b) := by
  have hall : ∀ x ∈ b.reverse, decide (x ≠ c) = true := by
    intro x hx
    have hxb : x ∈ b := mem_reverse.mp hx
    exact decide_eq_true fun h => hb (h ▸ hxb)
  have hrev : (a ++ c :: b).reverse = b.reverse ++ c :: a.reverse := by simp
  unfold rsplitOnce
  rw [hrev, takeWhile_append_of_pos hall, dropWhile_append_of_pos hall]
  simp

theorem rsplitOnce_eq_none {s : Str} : rsplitOnce c s = none ↔ c ∉ s := by
  have hall : s.reverse.dropWhile (fun x => x ≠ c) = [] ↔ c ∉ s := by
    rw [dropWhile_eq_nil_iff]
    simp only [mem_reverse, decide_eq_true_eq]
    exact ⟨fun h hc => h c hc rfl, fun h x hx he => h (he ▸ hx)⟩
  rw [← hall]
  unfold rsplitOnce
  cases s.reverse.dropWhile (fun x => x ≠ c) with
  | nil => simp
  | cons x before => simp

theorem rsplitOnce_some {s a b : Str} (h : rsplitOnce c s = some (a, b)) : s = a ++ c :: b ∧ c ∉ b := by
  have hmem : c ∈ s.reverse := by
    by_contra hno
    rw [rsplitOnce_eq_none.mpr fun hm => hno (mem_reverse.mpr hm)] at h
    cases h
  obtain ⟨after, before, hrev, hlast⟩ := eq_append_cons_of_mem hmem
  have hs : s = before.reverse ++ c :: after.reverse := by
    have := congrArg List.reverse hrev
    rwa [reverse_reverse, reverse_append, reverse_cons, append_assoc, singleton_append] at this
  have hnot : c ∉ after.reverse := fun hm => hlast (mem_reverse.mp hm)
  rw [hs, rsplitOnce_append hnot] at h
  cases h
  exact ⟨hs, hnot⟩

end Text

end Oreneta
