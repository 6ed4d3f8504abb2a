import Mathlib

/-!
# Rename rules

A rule splits a name into words and joins the words in its own case. Names are lists of ASCII
characters; the question is which names keep their words when one rule follows another.
-/

namespace Facet.Macros

inductive RenameRule
  | pascalCase
  | camelCase
  | snakeCase
  | screamingSnakeCase
  | kebabCase
  | screamingKebabCase
  | lowercase
  | uppercase
  deriving DecidableEq, Repr

/-- The whitespace of ASCII. -/
def whitespace : List Char := [' ', '\t', '\n', Char.ofNat 11, Char.ofNat 12, '\r']

def isSeparator (c : Char) : Bool := c == '_' || c == '-' || whitespace.contains c

/-- An uppercase letter behind the last character of a word starts a new word: behind a lowercase
letter or a digit (fooBar, foo1Bar), and at the end of an uppercase group (BARBaz). -/
def startsWord (prev c : Char) (next : Option Char) : Bool :=
  c.isUpper && (prev.isLower || prev.isDigit || prev.isUpper && next.any Char.isLower)

/-- The words collected so far, with the current one if there is one. -/
def pushWord (words : List (List Char)) (currentWord : List Char) : List (List Char) :=
  if currentWord.isEmpty then words else words ++ [currentWord]

def splitLoop : List Char → List Char → List (List Char) → List (List Char)
  | [], currentWord, words => pushWord words currentWord
  | c :: chars, currentWord, words =>
    if isSeparator c then splitLoop chars [] (pushWord words currentWord)
    else if currentWord.getLast?.any fun prev => startsWord prev c chars.head? then
      splitLoop chars [c] (words ++ [currentWord])
    else splitLoop chars (currentWord ++ [c]) words

/-- Splits a string into words based on case and separators. -/
def splitIntoWords (input : List Char) : List (List Char) :=
  if input.isEmpty then [] else (splitLoop input [] []).filter fun word => !word.isEmpty

def toLowercase (s : List Char) : List Char := s.map Char.toLower

def toUppercase (s : List Char) : List Char := s.map Char.toUpper

def toPascalCase (input : List Char) : List Char :=
  (splitIntoWords input).flatMap fun word =>
    match word with
    | [] => []
    | c :: chars => c.toUpper :: toLowercase chars

def toCamelCase (input : List Char) : List Char :=
  match toPascalCase input with
  | [] => []
  | firstChar :: chars => firstChar.toLower :: chars

/-- The words in the given case with the separator between them. -/
def joinWords (toCase : List Char → List Char) (sep : List Char) (input : List Char) : List Char :=
  sep.intercalate ((splitIntoWords input).map toCase)

def toSnakeCase : List Char → List Char := joinWords toLowercase ['_']

def toScreamingSnakeCase : List Char → List Char := joinWords toUppercase ['_']

def toKebabCase : List Char → List Char := joinWords toLowercase ['-']

def toScreamingKebabCase : List Char → List Char := joinWords toUppercase ['-']

namespace RenameRule

def apply : RenameRule → List Char → List Char
  | pascalCase, input => toPascalCase input
  | camelCase, input => toCamelCase input
  | snakeCase, input => toSnakeCase input
  | screamingSnakeCase, input => toScreamingSnakeCase input
  | kebabCase, input => toKebabCase input
  | screamingKebabCase, input => toScreamingKebabCase input
  | lowercase, input => joinWords toLowercase [] input
  | uppercase, input => joinWords toUppercase [] input

/-- The rules that put a separator between the words, with the separator. -/
def separator : RenameRule → Option Char
  | snakeCase | screamingSnakeCase => some '_'
  | kebabCase | screamingKebabCase => some '-'
  | _ => none

/-- Whether the rule writes the words in capitals. -/
def isScreaming : RenameRule → Bool
  | screamingSnakeCase | screamingKebabCase | uppercase => true
  | _ => false

def toCase (rule : RenameRule) : List Char → List Char :=
  if rule.isScreaming then toUppercase else toLowercase

theorem apply_eq {rule : RenameRule} {sep : Char} (h : rule.separator = some sep)
    (input : List Char) : rule.apply input = joinWords rule.toCase [sep] input := by
  cases rule <;> cases h <;> rfl

theorem isSeparator_of_separator {rule : RenameRule} {sep : Char} (h : rule.separator = some sep) :
    isSeparator sep = true := by
  cases rule <;> cases h <;> rfl

end RenameRule

variable {chars current word : List Char} {words : List (List Char)} {c : Char}

theorem pushWord_append (words words' : List (List Char)) (current : List Char) :
    pushWord (words ++ words') current = words ++ pushWord words' current := by
  unfold pushWord
  split_ifs
  · rfl
  · rw [List.append_assoc]

theorem splitLoop_append (chars current : List Char) (words words' : List (List Char)) :
    splitLoop chars current (words ++ words') = words ++ splitLoop chars current words' := by
  induction chars generalizing current words' with
  | nil => exact pushWord_append words words' current
  | cons c chars ih =>
    unfold splitLoop
    split_ifs
    · rw [pushWord_append, ih]
    · rw [List.append_assoc, ih]
    · rw [ih]

theorem splitLoop_eq (chars current : List Char) (words : List (List Char)) :
    splitLoop chars current words = words ++ splitLoop chars current [] := by
  have h := splitLoop_append chars current words []
  rwa [List.append_nil] at h

theorem isSeparator_eq_false (h : c.isAlphanum = true) : isSeparator c = false := by
  by_contra hsep
  simp only [Bool.not_eq_false, isSeparator, whitespace, Bool.or_eq_true, beq_iff_eq,
    List.contains_iff_mem, List.mem_cons, List.not_mem_nil, or_false] at hsep
  rcases hsep with (rfl | rfl) | rfl | rfl | rfl | rfl | rfl | rfl <;> exact absurd h (by decide)

theorem isAlphanum_of_isUpper (h : c.isUpper = true) : c.isAlphanum = true := by
  simp [Char.isAlphanum, Char.isAlpha, h]

theorem isAlphanum_of_isDigit (h : c.isDigit = true) : c.isAlphanum = true := by
  simp [Char.isAlphanum, h]

/-- The lookahead does not see a separator as a lowercase letter. -/
theorem isLower_eq_false (h : isSeparator c = true) : c.isLower = false := by
  cases hlower : c.isLower with
  | false => rfl
  | true =>
    have hnot := isSeparator_eq_false (c := c) (by simp [Char.isAlphanum, Char.isAlpha, hlower])
    rw [h] at hnot
    cases hnot

theorem splitLoop_append_separator (w rest current : List Char) {sep : Char}
    (hsep : isSeparator sep = true) :
    splitLoop (w ++ sep :: rest) current [] = splitLoop w current [] ++ splitLoop rest [] [] := by
  induction w generalizing current with
  | nil =>
    rw [List.nil_append, splitLoop.eq_2, if_pos hsep, splitLoop_eq rest]
    rfl
  | cons c w ih =>
    have hnext (prev : Char) :
        startsWord prev c (w ++ sep :: rest).head? = startsWord prev c w.head? := by
      cases w with
      | nil => simp [startsWord, isLower_eq_false hsep]
      | cons c' w => rfl
    rw [List.cons_append, splitLoop, splitLoop]
    simp only [hnext]
    split_ifs
    · rw [splitLoop_eq _ _ (pushWord [] current), ih, splitLoop_eq w _ (pushWord [] current),
        List.append_assoc]
    · rw [splitLoop_eq _ _ ([] ++ [current]), ih, splitLoop_eq w _ ([] ++ [current]),
        List.append_assoc, List.append_assoc, List.append_assoc]
    · exact ih _

theorem mem_pushWord (h : word ∈ pushWord words current) :
    word ∈ words ∨ word = current ∧ word ≠ [] := by
  unfold pushWord at h
  split_ifs at h with hempty
  · exact .inl h
  · rcases List.mem_append.mp h with hmem | hmem
    · exact .inl hmem
    · rw [List.mem_singleton] at hmem
      subst hmem
      exact .inr ⟨rfl, by simpa using hempty⟩

/-- The characters of a word are those of the text that are no separators. -/
theorem mem_splitLoop (h : word ∈ splitLoop chars current words) :
    word ∈ words ∨ word ≠ [] ∧ ∀ c ∈ word, c ∈ current ∨ c ∈ chars ∧ isSeparator c = false := by
  induction chars generalizing current words with
  | nil =>
    rcases mem_pushWord h with hmem | ⟨rfl, hne⟩
    · exact .inl hmem
    · exact .inr ⟨hne, fun c hc => .inl hc⟩
  | cons d chars ih =>
    unfold splitLoop at h
    split_ifs at h with hsep hstarts
    · rcases ih h with hmem | ⟨hne, hall⟩
      · rcases mem_pushWord hmem with hmem | ⟨rfl, hne⟩
        · exact .inl hmem
        · exact .inr ⟨hne, fun c hc => .inl hc⟩
      · refine .inr ⟨hne, ?_⟩
        intro c hc
        rcases hall c hc with hnil | ⟨hmem, hc⟩
        · cases hnil
        · exact .inr ⟨List.mem_cons_of_mem d hmem, hc⟩
    · rcases ih h with hmem | ⟨hne, hall⟩
      · rcases List.mem_append.mp hmem with hmem | hmem
        · exact .inl hmem
        · rw [List.mem_singleton] at hmem
          subst hmem
          refine .inr ⟨?_, fun c hc => .inl hc⟩
          rintro rfl
          cases hstarts
      · refine .inr ⟨hne, ?_⟩
        intro c hc
        rcases hall c hc with hsingle | ⟨hmem, hc⟩
        · rw [List.mem_singleton] at hsingle
          subst hsingle
          exact .inr ⟨List.mem_cons_self, Bool.eq_false_iff.mpr hsep⟩
        · exact .inr ⟨List.mem_cons_of_mem d hmem, hc⟩
    · rcases ih h with hmem | ⟨hne, hall⟩
      · exact .inl hmem
      · refine .inr ⟨hne, ?_⟩
        intro c hc
        rcases hall c hc with hcurrent | ⟨hmem, hc⟩
        · rcases List.mem_append.mp hcurrent with hcurrent | hsingle
          · exact .inl hcurrent
          · rw [List.mem_singleton] at hsingle
            subst hsingle
            exact .inr ⟨List.mem_cons_self, Bool.eq_false_iff.mpr hsep⟩
        · exact .inr ⟨List.mem_cons_of_mem d hmem, hc⟩

/-- No word is empty, so the last filter keeps all of them. -/
theorem splitIntoWords_eq (input : List Char) : splitIntoWords input = splitLoop input [] [] := by
  unfold splitIntoWords
  split_ifs with hempty
  · rw [List.isEmpty_iff.mp hempty]
    rfl
  · apply List.filter_eq_self.mpr
    intro w hw
    rcases mem_splitLoop hw with hmem | ⟨hne, -⟩
    · cases hmem
    · simpa using hne

theorem mem_splitIntoWords {input : List Char} (h : word ∈ splitIntoWords input) :
    word ≠ [] ∧ ∀ c ∈ word, c ∈ input ∧ isSeparator c = false := by
  rw [splitIntoWords_eq] at h
  rcases mem_splitLoop h with hmem | ⟨hne, hall⟩
  · cases hmem
  · refine ⟨hne, ?_⟩
    intro c hc
    rcases hall c hc with hnil | hmem
    · cases hnil
    · exact hmem

theorem splitIntoWords_intercalate {sep : Char} (hsep : isSeparator sep = true)
    (words : List (List Char)) :
    splitIntoWords ([sep].intercalate words) = words.flatMap splitIntoWords := by
  simp only [splitIntoWords_eq]
  induction words with
  | nil => rfl
  | cons w words ih =>
    cases words with
    | nil => simp [splitIntoWords_eq]
    | cons w' words =>
      rw [List.intercalate_cons_cons, List.append_assoc, List.singleton_append,
        splitLoop_append_separator _ _ _ hsep, ih, List.flatMap_cons, List.flatMap_cons,
        List.flatMap_cons, splitIntoWords_eq, splitIntoWords_eq]

/-- A text in which no character starts a word stays whole. -/
theorem splitLoop_eq_singleton (hsep : ∀ c ∈ chars, isSeparator c = false)
    (hne : current ++ chars ≠ [])
    (hwhole : ∀ front prev c back, current ++ chars = front ++ prev :: c :: back →
      startsWord prev c back.head? = false) :
    splitLoop chars current [] = [current ++ chars] := by
  induction chars generalizing current with
  | nil =>
    rw [List.append_nil] at hne ⊢
    simp [splitLoop, pushWord, hne]
  | cons c chars ih =>
    have hstarts : current.getLast?.any (fun prev => startsWord prev c chars.head?) = false := by
      cases hlast : current.getLast? with
      | none => rfl
      | some prev =>
        obtain ⟨front, rfl⟩ := List.getLast?_eq_some_iff.mp hlast
        exact hwhole front prev c chars (by simp)
    rw [splitLoop, hsep c List.mem_cons_self, hstarts]
    simp only [Bool.false_eq_true, if_false]
    have hassoc : current ++ c :: chars = (current ++ [c]) ++ chars := by simp
    rw [hassoc] at hne hwhole ⊢
    exact ih (fun c' hc' => hsep c' (List.mem_cons_of_mem c hc')) hne hwhole

theorem splitIntoWords_eq_singleton (hne : word ≠ []) (hsep : ∀ c ∈ word, isSeparator c = false)
    (hwhole : ∀ front prev c back, word = front ++ prev :: c :: back →
      startsWord prev c back.head? = false) : splitIntoWords word = [word] := by
  rw [splitIntoWords_eq]
  exact splitLoop_eq_singleton hsep hne hwhole

theorem pushWord_ne_nil (h : words ≠ [] ∨ current ≠ []) : pushWord words current ≠ [] := by
  unfold pushWord
  split_ifs with hempty
  · rcases h with hwords | hcurrent
    · exact hwords
    · exact absurd (List.isEmpty_iff.mp hempty) hcurrent
  · simp

theorem splitLoop_ne_nil (h : words ≠ [] ∨ current ≠ []) :
    splitLoop chars current words ≠ [] := by
  induction chars generalizing current words with
  | nil => exact pushWord_ne_nil h
  | cons c chars ih =>
    unfold splitLoop
    split_ifs
    · exact ih (.inl (pushWord_ne_nil h))
    · exact ih (.inl (by simp))
    · exact ih (.inr (by simp))

theorem splitIntoWords_ne_nil (hne : word ≠ []) (hsep : ∀ c ∈ word, isSeparator c = false) :
    splitIntoWords word ≠ [] := by
  rw [splitIntoWords_eq]
  cases word with
  | nil => exact absurd rfl hne
  | cons c word =>
    rw [splitLoop, hsep c List.mem_cons_self]
    exact splitLoop_ne_nil (.inr (by simp))

/-- A digit in front of a letter. Behind the digit the word is divided once it is capitalised. -/
def HasDigitBeforeLetter (word : List Char) : Prop :=
  ∃ front digit letter back, word = front ++ digit :: letter :: back ∧ digit.isDigit = true ∧
    letter.isAlpha = true

theorem isUpper_eq_false_of_isDigit (h : c.isDigit = true) : c.isUpper = false := by
  by_contra hupper
  simp only [Bool.not_eq_false, Char.isUpper, Char.isDigit, Bool.and_eq_true,
    decide_eq_true_eq, ge_iff_le, UInt32.le_iff_toNat_le] at h hupper
  have h9 : '9'.val.toNat = 57 := rfl
  have hA : 'A'.val.toNat = 65 := rfl
  omega

/-- A capital letter behind a digit starts a word, so there are two at least. -/
theorem two_le_length_splitLoop {front back : List Char} {digit letter : Char}
    (hdigit : digit.isDigit = true) (hletter : letter.isUpper = true) :
    2 ≤ (splitLoop (front ++ digit :: letter :: back) current words).length := by
  induction front generalizing current words with
  | nil =>
    have hstarts : startsWord digit letter back.head? = true := by
      simp [startsWord, hdigit, hletter]
    have hno (prev : Char) : startsWord prev digit (letter :: back).head? = false := by
      simp [startsWord, isUpper_eq_false_of_isDigit hdigit]
    have hnone : current.getLast?.any (fun prev => startsWord prev digit (letter :: back).head?)
        = false := by
      cases current.getLast? with
      | none => rfl
      | some prev => exact hno prev
    have hfirst : splitLoop (digit :: letter :: back) current words =
        splitLoop (letter :: back) (current ++ [digit]) words := by
      rw [splitLoop, isSeparator_eq_false (isAlphanum_of_isDigit hdigit), hnone]
      rfl
    have hsecond : splitLoop (letter :: back) (current ++ [digit]) words =
        splitLoop back [letter] (words ++ [current ++ [digit]]) := by
      rw [splitLoop, isSeparator_eq_false (isAlphanum_of_isUpper hletter), List.getLast?_concat,
        Option.any_some, hstarts]
      rfl
    have hrest : splitLoop back [letter] [] ≠ [] := splitLoop_ne_nil (.inr (by simp))
    have hpos := List.length_pos_iff.mpr hrest
    rw [List.nil_append, hfirst, hsecond, splitLoop_eq, List.length_append, List.length_append,
      List.length_singleton]
    omega
  | cons c front ih =>
    rw [List.cons_append]
    unfold splitLoop
    split_ifs
    · exact ih
    · exact ih
    · exact ih

theorem forall_alphanum {P : Char → Prop}
    (h : ∀ n : Fin 128, (Char.ofNat n).isAlphanum = true → P (Char.ofNat n))
    (hc : c.isAlphanum = true) : P c := by
  have hlt : c.toNat < 128 := by
    have hz : 'z'.val.toNat = 122 := rfl
    have hZ : 'Z'.val.toNat = 90 := rfl
    have h9 : '9'.val.toNat = 57 := rfl
    simp only [Char.isAlphanum, Char.isAlpha, Char.isUpper, Char.isLower, Char.isDigit,
      Bool.or_eq_true, Bool.and_eq_true, decide_eq_true_eq, ge_iff_le,
      UInt32.le_iff_toNat_le] at hc
    unfold Char.toNat
    omega
  have hchar := h ⟨c.toNat, hlt⟩
  rw [Char.ofNat_toNat] at hchar
  exact hchar hc

theorem toLower_spec (h : c.isAlphanum = true) :
    c.toLower.isAlphanum = true ∧ c.toLower.isUpper = false ∧
      c.toLower.toLower = c.toLower ∧ c.toLower.toUpper = c.toUpper :=
  forall_alphanum (P := fun c => c.toLower.isAlphanum = true ∧ c.toLower.isUpper = false ∧
    c.toLower.toLower = c.toLower ∧ c.toLower.toUpper = c.toUpper) (by decide +kernel) h

theorem toUpper_spec (h : c.isAlphanum = true) :
    c.toUpper.isAlphanum = true ∧ c.toUpper.isLower = false ∧
      c.toUpper.isUpper = c.isAlpha ∧ c.toUpper.isDigit = c.isDigit ∧
      c.toUpper.toLower = c.toLower ∧ c.toUpper.toUpper = c.toUpper :=
  forall_alphanum (P := fun c => c.toUpper.isAlphanum = true ∧ c.toUpper.isLower = false ∧
    c.toUpper.isUpper = c.isAlpha ∧ c.toUpper.isDigit = c.isDigit ∧
    c.toUpper.toLower = c.toLower ∧ c.toUpper.toUpper = c.toUpper) (by decide +kernel) h

/-- Letters and digits only. -/
def IsAlphanum (word : List Char) : Prop := ∀ c ∈ word, c.isAlphanum = true

namespace RenameRule

variable (P Q : RenameRule)

theorem toCase_ne_nil (h : word ≠ []) : P.toCase word ≠ [] := by
  unfold toCase
  split_ifs <;> simpa [toUppercase, toLowercase] using h

theorem isAlphanum_toCase (h : IsAlphanum word) : IsAlphanum (P.toCase word) := by
  unfold toCase
  split_ifs
  · intro c hc
    obtain ⟨d, hd, rfl⟩ := List.mem_map.mp hc
    exact (toUpper_spec (h d hd)).1
  · intro c hc
    obtain ⟨d, hd, rfl⟩ := List.mem_map.mp hc
    exact (toLower_spec (h d hd)).1

theorem toCase_toCase (h : IsAlphanum word) : Q.toCase (P.toCase word) = Q.toCase word := by
  have hmap {f g : Char → Char} (hfg : ∀ c ∈ word, g (f c) = g c) :
      (word.map f).map g = word.map g := by
    rw [List.map_map]
    exact List.map_congr_left hfg
  unfold toCase
  cases P.isScreaming <;> cases Q.isScreaming
  · exact hmap fun c hc => (toLower_spec (h c hc)).2.2.1
  · exact hmap fun c hc => (toLower_spec (h c hc)).2.2.2
  · exact hmap fun c hc => (toUpper_spec (h c hc)).2.2.2.2.1
  · exact hmap fun c hc => (toUpper_spec (h c hc)).2.2.2.2.2

/-- A word in another case stays one word, unless it is capitalised with a digit before a letter. -/
theorem splitIntoWords_toCase (hne : word ≠ []) (h : IsAlphanum word)
    (hdigit : P.isScreaming = true → ¬ HasDigitBeforeLetter word) :
    splitIntoWords (P.toCase word) = [P.toCase word] := by
  apply splitIntoWords_eq_singleton (P.toCase_ne_nil hne)
  · intro c hc
    exact isSeparator_eq_false (P.isAlphanum_toCase h c hc)
  intro front prev c back hword
  unfold toCase at hword
  cases hscreaming : P.isScreaming with
  | false =>
    rw [hscreaming] at hword
    have hc : c ∈ word.map Char.toLower := by
      rw [show word.map Char.toLower = _ from hword]
      simp
    obtain ⟨d, hd, rfl⟩ := List.mem_map.mp hc
    simp [startsWord, (toLower_spec (h d hd)).2.1]
  | true =>
    rw [hscreaming] at hword
    obtain ⟨front', rest, rfl, -, hrest⟩ := List.map_eq_append_iff.mp hword
    obtain ⟨prev', rest', rfl, rfl, hrest'⟩ := List.map_eq_cons_iff.mp hrest
    obtain ⟨c', back', rfl, rfl, rfl⟩ := List.map_eq_cons_iff.mp hrest'
    have hprev := toUpper_spec (h prev' (by simp))
    have hc := toUpper_spec (h c' (by simp))
    have hback : (back'.map Char.toUpper).head?.any Char.isLower = false := by
      cases back' with
      | nil => rfl
      | cons d back' => exact (toUpper_spec (h d (by simp))).2.1
    have hpair : (c'.isAlpha && prev'.isDigit) = false := by
      cases hboth : c'.isAlpha && prev'.isDigit with
      | false => rfl
      | true =>
        rw [Bool.and_eq_true] at hboth
        exact absurd ⟨front', prev', c', back', rfl, hboth.2, hboth.1⟩ (hdigit hscreaming)
    rw [startsWord, hc.2.2.1, hprev.2.1, hprev.2.2.2.1, hback, Bool.and_false, Bool.or_false,
      Bool.false_or, hpair]

theorem two_le_length_splitIntoWords (h : IsAlphanum word) (hscreaming : P.isScreaming = true)
    (hdigit : HasDigitBeforeLetter word) : 2 ≤ (splitIntoWords (P.toCase word)).length := by
  obtain ⟨front, digit, letter, back, rfl, hd, hl⟩ := hdigit
  have hdigit' := toUpper_spec (h digit (by simp))
  have hletter := toUpper_spec (h letter (by simp))
  rw [splitIntoWords_eq, toCase, hscreaming]
  simp only [if_true, toUppercase, List.map_append, List.map_cons]
  apply two_le_length_splitLoop
  · rw [hdigit'.2.2.2.1, hd]
  · rw [hletter.2.2.1, hl]

end RenameRule

theorem count_intercalate (sep : Char) (words : List (List Char)) (hne : words ≠ [])
    (h : ∀ w ∈ words, sep ∉ w) : ([sep].intercalate words).count sep + 1 = words.length := by
  induction words with
  | nil => exact absurd rfl hne
  | cons w words ih =>
    have hw : w.count sep = 0 := List.count_eq_zero.mpr (h w List.mem_cons_self)
    cases words with
    | nil => simp [hw]
    | cons w' words =>
      have hrest := ih (by simp) fun w'' hw'' => h w'' (List.mem_cons_of_mem w hw'')
      rw [List.intercalate_cons_cons, List.count_append, List.count_append, hw]
      simp only [List.count_singleton_self, List.length_cons] at hrest ⊢
      omega

theorem length_lt_flatMap {f : List Char → List (List Char)} (h : ∀ w ∈ words, f w ≠ [])
    (hw : word ∈ words) (htwo : 2 ≤ (f word).length) : words.length < (words.flatMap f).length := by
  have hle {ws : List (List Char)} (hws : ∀ w ∈ ws, f w ≠ []) :
      ws.length ≤ (ws.flatMap f).length := by
    induction ws with
    | nil => simp
    | cons w ws ih =>
      have hpos := List.length_pos_iff.mpr (hws w List.mem_cons_self)
      have hrest := ih fun w' hw' => hws w' (List.mem_cons_of_mem w hw')
      rw [List.flatMap_cons, List.length_append, List.length_cons]
      omega
  obtain ⟨front, back, rfl⟩ := List.append_of_mem hw
  have hfront := hle fun w hw' => h w (List.mem_append_left _ hw')
  have hback := hle fun w hw' => h w (List.mem_append_right _ (List.mem_cons_of_mem word hw'))
  rw [List.flatMap_append, List.flatMap_cons]
  simp only [List.length_append, List.length_cons]
  omega

/-- The characters of an ASCII identifier. -/
def IsIdentifier (s : List Char) : Prop := ∀ c ∈ s, c = '_' ∨ c.isAlphanum = true

theorem isIdentifier_of_all {s : List Char}
    (h : s.all (fun c => c == '_' || c.isAlphanum) = true) : IsIdentifier s := by
  intro c hc
  simpa using List.all_eq_true.mp h c hc

theorem IsIdentifier.isAlphanum_word {s : List Char} (hs : IsIdentifier s)
    (hw : word ∈ splitIntoWords s) : word ≠ [] ∧ IsAlphanum word := by
  obtain ⟨hne, hall⟩ := mem_splitIntoWords hw
  refine ⟨hne, ?_⟩
  intro c hc
  obtain ⟨hmem, hsep⟩ := hall c hc
  rcases hs c hmem with rfl | halpha
  · cases hsep
  · exact halpha

namespace RenameRule

variable {P Q : RenameRule}

/-- The words of a renamed identifier are those of its words in the new case. -/
theorem splitIntoWords_apply {sep : Char} (hP : P.separator = some sep) (s : List Char) :
    splitIntoWords (P.apply s) =
      (splitIntoWords s).flatMap fun word => splitIntoWords (P.toCase word) := by
  rw [apply_eq hP, joinWords, splitIntoWords_intercalate (isSeparator_of_separator hP),
    List.flatMap_map]

/-- A separated rule after another gives what it gives alone, unless the first one writes a word in
capitals that has a digit before a letter. -/
theorem apply_apply_iff (hP : P.separator ≠ none) (hQ : Q.separator ≠ none) {s : List Char}
    (hs : IsIdentifier s) :
    Q.apply (P.apply s) = Q.apply s ↔
      (P.isScreaming = true → ∀ word ∈ splitIntoWords s, ¬ HasDigitBeforeLetter word) := by
  obtain ⟨sep, hsep⟩ := Option.ne_none_iff_exists'.mp hP
  obtain ⟨sep', hsep'⟩ := Option.ne_none_iff_exists'.mp hQ
  rw [apply_eq hsep' (P.apply s), apply_eq hsep' s, joinWords, joinWords, splitIntoWords_apply hsep]
  constructor
  · intro heq hscreaming word hword hdigit
    have hlt := length_lt_flatMap (f := fun word => splitIntoWords (P.toCase word))
      (fun w hw => splitIntoWords_ne_nil (P.toCase_ne_nil (hs.isAlphanum_word hw).1)
        fun c hc => isSeparator_eq_false (P.isAlphanum_toCase (hs.isAlphanum_word hw).2 c hc))
      hword (two_le_length_splitIntoWords P (hs.isAlphanum_word hword).2 hscreaming hdigit)
    have hnot {w : List Char} (hw : IsAlphanum w) : sep' ∉ Q.toCase w := by
      intro hmem
      have hno := isSeparator_eq_false (Q.isAlphanum_toCase hw sep' hmem)
      rw [isSeparator_of_separator hsep'] at hno
      cases hno
    have hpos := List.length_pos_of_mem hword
    have hleft := count_intercalate sep'
      (((splitIntoWords s).flatMap fun word => splitIntoWords (P.toCase word)).map Q.toCase)
      (by
        rw [← List.length_pos_iff, List.length_map]
        omega)
      (by
        intro w hw
        obtain ⟨piece, hpiece, rfl⟩ := List.mem_map.mp hw
        obtain ⟨w', hw', hpiece⟩ := List.mem_flatMap.mp hpiece
        apply hnot
        intro c hc
        exact P.isAlphanum_toCase (hs.isAlphanum_word hw').2 c ((mem_splitIntoWords hpiece).2 c hc).1)
    have hright := count_intercalate sep' ((splitIntoWords s).map Q.toCase)
      (by
        rw [← List.length_pos_iff, List.length_map]
        exact hpos)
      (by
        intro w hw
        obtain ⟨w', hw', rfl⟩ := List.mem_map.mp hw
        exact hnot (hs.isAlphanum_word hw').2)
    rw [heq, hright, List.length_map, List.length_map] at hleft
    omega
  · intro hdigit
    have hwords : ((splitIntoWords s).flatMap fun word => splitIntoWords (P.toCase word)) =
        (splitIntoWords s).map P.toCase := by
      rw [← List.flatMap_singleton' ((splitIntoWords s).map P.toCase), List.flatMap_map]
      apply List.flatMap_congr
      intro w hw
      obtain ⟨hne, halpha⟩ := hs.isAlphanum_word hw
      exact P.splitIntoWords_toCase hne halpha fun hscreaming => hdigit hscreaming w hw
    rw [hwords, List.map_map]
    congr 1
    apply List.map_congr_left
    intro w hw
    exact toCase_toCase P Q (hs.isAlphanum_word hw).2

theorem apply_apply_iff_kebab :
    kebabCase.apply (screamingSnakeCase.apply "fooBar1".toList) =
        kebabCase.apply "fooBar1".toList ↔
      (screamingSnakeCase.isScreaming = true →
        ∀ word ∈ splitIntoWords "fooBar1".toList, ¬ HasDigitBeforeLetter word) :=
  apply_apply_iff (by decide) (by decide) (isIdentifier_of_all (by decide))

/-- FOO1BAR becomes FOO1_BAR. -/
theorem screamingSnakeCase_not_idempotent :
    ¬ ∀ (P Q : RenameRule) (s : List Char), P.separator ≠ none → Q.separator ≠ none →
      IsIdentifier s → Q.apply (P.apply s) = Q.apply s := by
  intro h
  have hsame := h screamingSnakeCase screamingSnakeCase "foo1bar".toList (by decide) (by decide)
    (isIdentifier_of_all (by decide))
  exact absurd hsame (by decide)

end RenameRule

end Facet.Macros
