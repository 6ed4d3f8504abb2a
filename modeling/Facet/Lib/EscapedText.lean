import Mathlib.Data.List.Basic
import Mathlib.Tactic

/-!
# Texts with escapes

In a text every element stands for itself, except that a marker starts an escape, which stands for
one element. The escapes are given by a relation between what follows the marker and what the
escape stands for.
-/

namespace EscapedText

variable {α : Type} (marker : α) (E : List α → α → Prop)

/-- The text `s` consists of plain elements and escapes, and stands for `t`. -/
inductive Denotes : List α → List α → Prop
  | nil : Denotes [] []
  | plain {c : α} {s t : List α} : c ≠ marker → Denotes s t → Denotes (c :: s) (c :: t)
  | escape {e : List α} {c : α} {s t : List α} :
    E e c → Denotes s t → Denotes (marker :: (e ++ s)) (c :: t)

/-- No text starts with two escapes. -/
def Unambiguous : Prop :=
  ∀ e c e' c' r r', E e c → E e' c' → e ++ r = e' ++ r' → e = e' ∧ c = c'

/-- The first marker of `s` that starts no escape is the one behind `front`. -/
def IllFormedAfter (s front : List α) : Prop :=
  (∃ t, Denotes marker E front t) ∧
    ∃ rest, s = front ++ marker :: rest ∧ ∀ e c back, E e c → rest ≠ e ++ back

variable {marker : α} {E E' : List α → α → Prop} {s front back t t' : List α}

theorem denotes_nil_iff : Denotes marker E [] t ↔ t = [] := by
  constructor
  · intro h
    cases h
    rfl
  · rintro rfl
    exact .nil

theorem denotes_cons_iff {c : α} :
    Denotes marker E (c :: s) t ↔
      (c ≠ marker ∧ ∃ t', t = c :: t' ∧ Denotes marker E s t') ∨
      (c = marker ∧ ∃ e d back t', s = e ++ back ∧ E e d ∧ t = d :: t' ∧
        Denotes marker E back t') := by
  constructor
  · generalize hs : c :: s = l
    intro h
    cases h with
    | nil => cases hs
    | plain hne hrest =>
      cases hs
      exact .inl ⟨hne, _, rfl, hrest⟩
    | escape hescape hrest =>
      cases hs
      exact .inr ⟨rfl, _, _, _, _, rfl, hescape, rfl, hrest⟩
  · rintro (⟨hne, t', rfl, hrest⟩ | ⟨rfl, e, d, back, t', rfl, hescape, rfl, hrest⟩)
    · exact .plain hne hrest
    · exact .escape hescape hrest

theorem Denotes.single {e : List α} {c : α} (h : E e c) : Denotes marker E (marker :: e) [c] := by
  rw [← List.append_nil e]
  exact .escape h .nil

theorem Denotes.append (h : Denotes marker E front t) (h' : Denotes marker E back t') :
    Denotes marker E (front ++ back) (t ++ t') := by
  induction h with
  | nil => exact h'
  | plain hne _ ih => exact .plain hne ih
  | escape hescape _ ih =>
    rw [List.cons_append, List.append_assoc]
    exact .escape hescape ih

theorem Denotes.mono (hsub : ∀ e c, E e c → E' e c) (h : Denotes marker E s t) :
    Denotes marker E' s t := by
  induction h with
  | nil => exact .nil
  | plain hne _ ih => exact .plain hne ih
  | escape hescape _ ih => exact .escape (hsub _ _ hescape) ih

/-- What a front stands for comes first, and the rest is read by itself. -/
theorem Denotes.of_append (hE : Unambiguous E) (h : Denotes marker E front t)
    (h' : Denotes marker E (front ++ back) t') :
    ∃ t'', t' = t ++ t'' ∧ Denotes marker E back t'' := by
  induction h generalizing t' with
  | nil => exact ⟨t', rfl, h'⟩
  | @plain c s t hne _ ih =>
    obtain ⟨-, rest, rfl, hrest⟩ | ⟨heq, -⟩ := denotes_cons_iff.mp h'
    · obtain ⟨t'', rfl, hback⟩ := ih hrest
      exact ⟨t'', rfl, hback⟩
    · exact absurd heq hne
  | @escape e c s t hescape _ ih =>
    rw [List.cons_append, List.append_assoc] at h'
    obtain ⟨hne, -⟩ | ⟨-, e', d, back', rest, heq, hescape', rfl, hrest⟩ := denotes_cons_iff.mp h'
    · exact absurd rfl hne
    · obtain ⟨rfl, rfl⟩ := hE _ _ _ _ _ _ hescape hescape' heq
      obtain rfl := List.append_cancel_left heq
      obtain ⟨t'', rfl, hback⟩ := ih hrest
      exact ⟨t'', rfl, hback⟩

theorem Denotes.unique (hE : Unambiguous E) (h : Denotes marker E s t)
    (h' : Denotes marker E s t') : t = t' := by
  rw [← List.append_nil s] at h'
  obtain ⟨t'', rfl, hnil⟩ := h.of_append hE h'
  rw [denotes_nil_iff.mp hnil, List.append_nil]

theorem IllFormedAfter.not_denotes (hE : Unambiguous E) (h : IllFormedAfter marker E s front) :
    ¬ Denotes marker E s t := by
  obtain ⟨⟨t', hfront⟩, rest, rfl, hnone⟩ := h
  intro hs
  obtain ⟨t'', -, hmarker⟩ := hfront.of_append hE hs
  obtain ⟨hne, -⟩ | ⟨-, e, c, back, -, heq, hescape, -⟩ := denotes_cons_iff.mp hmarker
  · exact hne rfl
  · exact hnone e c back hescape heq

/-- A marker that starts no escape is not part of a front that stands for something. -/
theorem IllFormedAfter.not_append (hE : Unambiguous E) (h : IllFormedAfter marker E s front)
    {middle : List α} (back : List α) (hne : middle ≠ []) (hs : s = front ++ middle ++ back) :
    ¬ Denotes marker E (front ++ middle) t := by
  obtain ⟨⟨t', hfront⟩, rest, heq, hnone⟩ := h
  rw [hs, List.append_assoc] at heq
  have hmiddle := List.append_cancel_left heq
  cases middle with
  | nil => exact absurd rfl hne
  | cons c middle =>
    rw [List.cons_append] at hmiddle
    cases hmiddle
    apply IllFormedAfter.not_denotes hE
    refine ⟨⟨t', hfront⟩, middle, rfl, ?_⟩
    intro e d tail hescape hmid
    apply hnone e d (tail ++ back) hescape
    rw [hmid, List.append_assoc]

theorem IllFormedAfter.unique (hE : Unambiguous E) {front' : List α}
    (h : IllFormedAfter marker E s front) (h' : IllFormedAfter marker E s front') :
    front = front' := by
  obtain ⟨⟨t, hfront⟩, rest, hs, -⟩ := id h
  obtain ⟨⟨t', hfront'⟩, rest', hs', -⟩ := id h'
  obtain ⟨middle, rfl, hrest⟩ | ⟨middle, rfl, hrest⟩ :=
    List.append_eq_append_iff.mp (hs.symm.trans hs')
  · by_contra hne
    refine h.not_append hE (marker :: rest') ?_ hs' hfront'
    rintro rfl
    exact hne (List.append_nil _).symm
  · by_contra hne
    refine h'.not_append hE (marker :: rest) ?_ hs hfront
    rintro rfl
    exact hne (List.append_nil _)

theorem denotes_or_illFormed (marker : α) (E : List α → α → Prop) (s : List α) :
    (∃ t, Denotes marker E s t) ∨ ∃ front, IllFormedAfter marker E s front := by
  induction hn : s.length using Nat.strong_induction_on generalizing s with
  | _ n ih =>
    cases s with
    | nil => exact .inl ⟨[], .nil⟩
    | cons c s =>
      -- the element or the escape at the front, and what is left
      by_cases hhead : ∃ e d back, c :: s = e ++ back ∧ e ≠ [] ∧ Denotes marker E e [d]
      · obtain ⟨e, d, back, hs, hne, hd⟩ := hhead
        have hlt : back.length < n := by
          have hpos := List.length_pos_iff.mpr hne
          rw [← hn, hs, List.length_append]
          omega
        rw [hs]
        obtain ⟨t, ht⟩ | ⟨front, ⟨t, hfront⟩, rest, rfl, hnone⟩ := ih back.length hlt back rfl
        · exact .inl ⟨_, hd.append ht⟩
        · exact .inr ⟨e ++ front, ⟨_, hd.append hfront⟩, rest, by simp, hnone⟩
      · push Not at hhead
        have hmarker : c = marker := by
          by_contra hne
          exact hhead [c] c s rfl (List.cons_ne_nil c []) (.plain hne .nil)
        subst hmarker
        refine .inr ⟨[], ⟨[], .nil⟩, s, rfl, ?_⟩
        intro e d back hescape hs
        exact hhead (c :: e) d back (by rw [hs, List.cons_append]) (List.cons_ne_nil c e)
          (Denotes.single hescape)

/-- Two sorts of escapes, one among the other, give a text the same meaning and the same first
fault unless its first fault by the narrower sort is an escape of the wider. -/
theorem agree_iff (hsub : ∀ e c, E e c → E' e c) (hE' : Unambiguous E') :
    ((∀ t, Denotes marker E' s t ↔ Denotes marker E s t) ∧
        ∀ front, IllFormedAfter marker E' s front → IllFormedAfter marker E s front) ↔
      ¬ ∃ front e c back t, s = front ++ marker :: (e ++ back) ∧ Denotes marker E front t ∧
        E' e c ∧ ¬ E e c := by
  have hE : Unambiguous E := fun e c e' c' r r' h h' =>
    hE' e c e' c' r r' (hsub _ _ h) (hsub _ _ h')
  constructor
  · rintro ⟨hdenotes, hfault⟩ ⟨front, e, c, back, t, hs, hfront, hwide, hnarrow⟩
    have hill : IllFormedAfter marker E s front := by
      refine ⟨⟨t, hfront⟩, e ++ back, hs, ?_⟩
      intro e' c' back' hescape heq
      obtain ⟨rfl, rfl⟩ := hE' _ _ _ _ _ _ hwide (hsub _ _ hescape) heq
      exact hnarrow hescape
    obtain ⟨t', ht'⟩ | ⟨front', hill'⟩ := denotes_or_illFormed marker E' s
    · exact hill.not_denotes hE ((hdenotes t').mp ht')
    · obtain rfl := hill.unique hE (hfault front' hill')
      obtain ⟨-, rest, hs', hnone⟩ := hill'
      cases List.append_cancel_left (hs.symm.trans hs')
      exact hnone e c back hwide rfl
  · intro hno
    obtain ⟨t, ht⟩ | ⟨front, hill⟩ := denotes_or_illFormed marker E s
    · have ht' := ht.mono hsub
      constructor
      · intro t'
        constructor
        · intro h
          rwa [← ht'.unique hE' h]
        · exact Denotes.mono hsub
      · intro front hill
        exact absurd ht' (hill.not_denotes hE')
    · have hill' : IllFormedAfter marker E' s front := by
        obtain ⟨⟨t, hfront⟩, rest, hs, hnone⟩ := hill
        refine ⟨⟨t, hfront.mono hsub⟩, rest, hs, ?_⟩
        intro e c back hwide heq
        apply hno
        refine ⟨front, e, c, back, t, by rw [hs, heq], hfront, hwide, ?_⟩
        intro hescape
        exact hnone e c back hescape heq
      constructor
      · intro t
        constructor
        · intro h
          exact absurd h (hill'.not_denotes hE')
        · intro h
          exact absurd h (hill.not_denotes hE)
      · intro front' h
        rwa [← hill'.unique hE' h]

end EscapedText
