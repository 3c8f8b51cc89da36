import Oreneta.Lib.Text

/-!
# Quoted texts

* `quote`, `unquote` — a text between quotation marks, with a backslash before each mark and backslash in
  it, and the text and what stands behind it read back (`unquote_quote`).
* `quoteAll` — several texts one after the other; `quoteAll_injective`.
-/

namespace Oreneta.Quoted

open List

def escape (s : Str) : Str := s.flatMap (fun c => if c = '"' ∨ c = '\\' then ['\\', c] else [c])

def quote (s : Str) : Str := '"' :: (escape s ++ ['"'])

/-- The text up to the closing mark, and what stands behind it. -/
def unquote : Str → Option (Str × Str)
  | [] => none
  | [c] => if c = '"' then some ([], []) else none
  | c :: d :: rest =>
    if c = '"' then some ([], d :: rest)
    else if c = '\\' then (unquote rest).map (fun p => (d :: p.1, p.2))
    else (unquote (d :: rest)).map (fun p => (c :: p.1, p.2))

theorem unquote_mark (rest : Str) : unquote ('"' :: rest) = some ([], rest) := by
  cases rest <;> rfl

theorem unquote_plain {c : Char} (h : ¬ (c = '"' ∨ c = '\\')) (rest : Str) :
    unquote (c :: rest) = (unquote rest).map (fun p => (c :: p.1, p.2)) := by
  rw [not_or] at h
  cases rest with
  | nil => simp [unquote, h.1]
  | cons d rest => rw [unquote, if_neg h.1, if_neg h.2]

/-- **A quoted text is read back.** -/
theorem unquote_quote : ∀ s rest : Str, unquote (escape s ++ '"' :: rest) = some (s, rest)
  | [], rest => unquote_mark rest
  | c :: s, rest => by
    have ih := unquote_quote s rest
    unfold escape at ih ⊢
    rw [flatMap_cons, append_assoc]
    split
    · rename_i hc
      have hno : ¬ '\\' = '"' := by decide
      rw [cons_append, cons_append, nil_append, unquote, if_neg hno, if_pos rfl, ih, Option.map_some]
    · rename_i hc
      rw [singleton_append, unquote_plain hc, ih, Option.map_some]

theorem quote_append (s rest : Str) : quote s ++ rest = '"' :: (escape s ++ '"' :: rest) := by
  simp [quote]

/-- Where a quoted text ends is determined. -/
theorem quote_inj {s s' rest rest' : Str} (h : quote s ++ rest = quote s' ++ rest') : s = s' ∧ rest = rest' := by
  rw [quote_append, quote_append, List.cons.injEq] at h
  have hread := congrArg unquote h.2
  rw [unquote_quote, unquote_quote, Option.some.injEq, Prod.mk.injEq] at hread
  exact hread

def quoteAll (texts : List Str) : Str := texts.flatMap quote

theorem quoteAll_injective : Function.Injective quoteAll := by
  intro texts
  induction texts with
  | nil =>
    rintro (_ | ⟨t, texts'⟩) h
    · rfl
    · simp [quoteAll, quote] at h
  | cons t texts ih =>
    rintro (_ | ⟨t', texts'⟩) h
    · simp [quoteAll, quote] at h
    · obtain ⟨rfl, hrest⟩ := quote_inj h
      rw [ih hrest]

end Oreneta.Quoted
