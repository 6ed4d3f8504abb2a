import Mathlib.Data.List.Basic
import Mathlib.Tactic

/-!
# Raw string literals

A raw string literal is an `r`, a number of hashes, a quote, its content, and a quote with as many
hashes. The first quote that has so many hashes behind it closes the literal. A carriage return is
a character like any other here.
-/

namespace RawString

/-- The quote character. -/
def quote : Char := Char.ofNat 34

/-- How many hashes a text starts with. -/
def hashes (s : List Char) : ℕ := (s.takeWhile (· == '#')).length

def literal (n : ℕ) (content : List Char) : List Char :=
  'r' :: (List.replicate n '#' ++ quote :: (content ++ quote :: List.replicate n '#'))

/-- The text up to the first quote with `n` hashes, and the text behind these. -/
def lexContent (n : ℕ) : List Char → Option (List Char × List Char)
  | [] => none
  | c :: rest =>
    if c = quote ∧ n ≤ hashes rest then some ([], rest.drop n)
    else (lexContent n rest).map fun (content, back) => (c :: content, back)

/-- The content of the literal that a text starts with, and the text behind the literal. -/
def lex : List Char → Option (List Char × List Char)
  | [] => none
  | c :: rest =>
    if c = 'r' then
      match rest.drop (hashes rest) with
      | [] => none
      | c' :: body => if c' = quote then lexContent (hashes rest) body else none
    else none

/-- A quote of the content closes the literal before its end. -/
def ClosedEarly (n : ℕ) : List Char → Prop
  | [] => False
  | c :: rest => (c = quote ∧ n ≤ hashes rest) ∨ ClosedEarly n rest

theorem closedEarly_iff (n : ℕ) (content : List Char) :
    ClosedEarly n content ↔
      ∃ front back, content = front ++ quote :: back ∧ n ≤ hashes back := by
  induction content with
  | nil => simp [ClosedEarly]
  | cons c rest ih =>
    rw [ClosedEarly, ih]
    constructor
    · rintro (⟨rfl, hn⟩ | ⟨front, back, rfl, hn⟩)
      · exact ⟨[], rest, rfl, hn⟩
      · exact ⟨c :: front, back, rfl, hn⟩
    · rintro ⟨front, back, heq, hn⟩
      cases front with
      | nil =>
        cases heq
        exact .inl ⟨rfl, hn⟩
      | cons c' front =>
        cases heq
        exact .inr ⟨front, back, rfl, hn⟩

theorem hashes_append_quote (s back : List Char) : hashes (s ++ quote :: back) = hashes s := by
  induction s with
  | nil => rfl
  | cons c rest ih =>
    unfold hashes at ih ⊢
    rw [List.cons_append, List.takeWhile_cons, List.takeWhile_cons]
    split_ifs
    · rw [List.length_cons, List.length_cons, ih]
    · rfl

theorem hashes_replicate_append (n : ℕ) (back : List Char) :
    hashes (List.replicate n '#' ++ quote :: back) = n := by
  rw [hashes_append_quote]
  simp [hashes]

/-- Up to its delimiter a content is read back exactly if none of its quotes closes it. -/
theorem lexContent_eq_iff (n : ℕ) (content back : List Char) :
    lexContent n (content ++ quote :: (List.replicate n '#' ++ back)) = some (content, back) ↔
      ¬ ClosedEarly n content := by
  induction content with
  | nil =>
    have hn : n ≤ hashes (List.replicate n '#' ++ back) := by
      simp [hashes]
    simp [lexContent, ClosedEarly, hn]
  | cons c rest ih =>
    rw [List.cons_append, lexContent, hashes_append_quote, ClosedEarly]
    split_ifs with hcloses
    · simp [hcloses]
    · have hcons : (lexContent n (rest ++ quote :: (List.replicate n '#' ++ back))).map
            (fun (content, back) => (c :: content, back)) = some (c :: rest, back) ↔
          lexContent n (rest ++ quote :: (List.replicate n '#' ++ back)) = some (rest, back) := by
        simp [Option.map_eq_some_iff, Prod.ext_iff]
      rw [hcons, ih, or_iff_right hcloses]

theorem lex_literal (n : ℕ) (content : List Char) :
    lex (literal n content) = some (content, []) ↔ ¬ ClosedEarly n content := by
  have hdrop : (List.replicate n '#' ++ quote :: (content ++ quote :: List.replicate n '#')).drop n
      = quote :: (content ++ quote :: List.replicate n '#') := by
    simp
  rw [literal, lex, if_pos rfl, hashes_replicate_append, hdrop]
  have h := lexContent_eq_iff n content []
  rw [List.append_nil] at h
  simpa using h

end RawString
