import Oreneta.Lib.Text

/-!
# Base 64

Octets as characters of an alphabet, three octets in four characters.

* `Alphabet` — 64 characters and what each stands for; `standard`, `urlSafe` are those of RFC 4648.
* `encode`, `decode` — without padding; `decode` refuses bits left over at the end.  `decodePadded` — with it.
* `decode_encode` — what was encoded is decoded; `mem_encode` — only characters of the alphabet are written.
-/

namespace Oreneta.Base64

open List Option

/-- An octet. -/
def Octet (n : Nat) : Prop := n < 256

structure Alphabet where
  symbol : Nat → Char
  value : Char → Option Nat
  value_symbol : ∀ n, n < 64 → value (symbol n) = some n

variable (a : Alphabet)

/-- Octets in characters, without padding. -/
def encode : List Nat → Str
  | [] => []
  | [x] => [a.symbol (x / 4), a.symbol (x % 4 * 16)]
  | [x, y] => [a.symbol (x / 4), a.symbol (x % 4 * 16 + y / 16), a.symbol (y % 16 * 4)]
  | x :: y :: z :: rest =>
    a.symbol (x / 4) :: a.symbol (x % 4 * 16 + y / 16) :: a.symbol (y % 16 * 4 + z / 64) ::
      a.symbol (z % 64) :: encode rest

/-- The octets of characters without padding; none if a character is not of the alphabet, if one is left
alone, or if the bits left over are not zero. -/
def decode : Str → Option (List Nat)
  | [] => some []
  | [_] => none
  | [c, d] => do
    let x ← a.value c
    let y ← a.value d
    if y % 16 = 0 then some [x * 4 + y / 16] else none
  | [c, d, e] => do
    let x ← a.value c
    let y ← a.value d
    let z ← a.value e
    if z % 4 = 0 then some [x * 4 + y / 16, y % 16 * 16 + z / 4] else none
  | c :: d :: e :: f :: rest => do
    let x ← a.value c
    let y ← a.value d
    let z ← a.value e
    let w ← a.value f
    let octets ← decode rest
    some ((x * 4 + y / 16) :: (y % 16 * 16 + z / 4) :: (z % 4 * 64 + w) :: octets)

/-- The octets of padded characters: four for every three octets, the last filled up with equal signs. -/
def decodePadded (s : Str) : Option (List Nat) :=
  let body := s.rdropWhile (fun c => c = '=')
  if s.length % 4 = 0 ∧ s.length ≤ body.length + 2 then decode a body else none

/-- What was encoded is decoded. -/
theorem decode_encode : ∀ {octets : List Nat}, (∀ n ∈ octets, Octet n) → decode a (encode a octets) = some octets
  | [], _ => rfl
  | [x], h => by
    have hx : x < 256 := h x (by simp)
    have h1 := a.value_symbol (x / 4) (by omega)
    have h2 := a.value_symbol (x % 4 * 16) (by omega)
    have hrest : x % 4 * 16 % 16 = 0 := by omega
    have hvalue : x / 4 * 4 + x % 4 * 16 / 16 = x := by omega
    simp only [encode, decode, h1, h2, bind_eq_bind, bind_some, if_pos hrest, hvalue]
  | [x, y], h => by
    have hx : x < 256 := h x (by simp)
    have hy : y < 256 := h y (by simp)
    have h1 := a.value_symbol (x / 4) (by omega)
    have h2 := a.value_symbol (x % 4 * 16 + y / 16) (by omega)
    have h3 := a.value_symbol (y % 16 * 4) (by omega)
    have hrest : y % 16 * 4 % 4 = 0 := by omega
    have hfirst : x / 4 * 4 + (x % 4 * 16 + y / 16) / 16 = x := by omega
    have hsecond : (x % 4 * 16 + y / 16) % 16 * 16 + y % 16 * 4 / 4 = y := by omega
    simp only [encode, decode, h1, h2, h3, bind_eq_bind, bind_some, if_pos hrest, hfirst, hsecond]
  | x :: y :: z :: rest, h => by
    have hx : x < 256 := h x (by simp)
    have hy : y < 256 := h y (by simp)
    have hz : z < 256 := h z (by simp)
    have h1 := a.value_symbol (x / 4) (by omega)
    have h2 := a.value_symbol (x % 4 * 16 + y / 16) (by omega)
    have h3 := a.value_symbol (y % 16 * 4 + z / 64) (by omega)
    have h4 := a.value_symbol (z % 64) (by omega)
    have hfirst : x / 4 * 4 + (x % 4 * 16 + y / 16) / 16 = x := by omega
    have hsecond : (x % 4 * 16 + y / 16) % 16 * 16 + (y % 16 * 4 + z / 64) / 4 = y := by omega
    have hthird : (y % 16 * 4 + z / 64) % 4 * 64 + z % 64 = z := by omega
    have hrest : decode a (encode a rest) = some rest := decode_encode fun n hn => h n (by simp [hn])
    simp only [encode, decode, h1, h2, h3, h4, hrest, bind_eq_bind, bind_some, hfirst, hsecond, hthird]

/-- Only characters of the alphabet are written. -/
theorem mem_encode : ∀ {octets : List Nat} {c : Char}, (∀ n ∈ octets, Octet n) → c ∈ encode a octets →
    ∃ n, n < 64 ∧ c = a.symbol n
  | [], c, _, h => by cases h
  | [x], c, hoct, h => by
    have hx : x < 256 := hoct x (by simp)
    simp only [encode, mem_cons, not_mem_nil, or_false] at h
    rcases h with h | h
    · exact ⟨_, by omega, h⟩
    · exact ⟨_, by omega, h⟩
  | [x, y], c, hoct, h => by
    have hx : x < 256 := hoct x (by simp)
    have hy : y < 256 := hoct y (by simp)
    simp only [encode, mem_cons, not_mem_nil, or_false] at h
    rcases h with h | h | h
    · exact ⟨_, by omega, h⟩
    · exact ⟨_, by omega, h⟩
    · exact ⟨_, by omega, h⟩
  | x :: y :: z :: rest, c, hoct, h => by
    have hx : x < 256 := hoct x (by simp)
    have hy : y < 256 := hoct y (by simp)
    have hz : z < 256 := hoct z (by simp)
    simp only [encode, mem_cons] at h
    rcases h with h | h | h | h | h
    · exact ⟨_, by omega, h⟩
    · exact ⟨_, by omega, h⟩
    · exact ⟨_, by omega, h⟩
    · exact ⟨_, by omega, h⟩
    · exact mem_encode (fun n hn => hoct n (by simp [hn])) h

theorem encode_ne_nil {octets : List Nat} (h : octets ≠ []) : encode a octets ≠ [] := by
  match octets, h with
  | [x], _ => simp [encode]
  | [x, y], _ => simp [encode]
  | x :: y :: z :: rest, _ => simp [encode]

/-! ## Alphabets -/

def STANDARD : Str := "ABCDEFGHIJKLMNOPQRSTUVWXYZabcdefghijklmnopqrstuvwxyz0123456789+/"

def URL_SAFE : Str := "ABCDEFGHIJKLMNOPQRSTUVWXYZabcdefghijklmnopqrstuvwxyz0123456789-_"

/-- RFC 4648 §4. -/
def standard : Alphabet where
  symbol := fun n => STANDARD.getD n 'A'
  value := fun c => STANDARD.findIdx? (fun x => x = c)
  value_symbol := by decide

/-- RFC 4648 §5. -/
def urlSafe : Alphabet where
  symbol := fun n => URL_SAFE.getD n 'A'
  value := fun c => URL_SAFE.findIdx? (fun x => x = c)
  value_symbol := by decide

end Oreneta.Base64
