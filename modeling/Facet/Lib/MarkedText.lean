import Facet.Lib.Utf8

/-!
# Texts with marked parts

A text that was put together from smaller ones, with a mark around each part: the steps that lead
to the part, and where it stands. The marks are listed in the order in which their parts end, so
that a part comes after the parts it consists of.
-/

namespace MarkedText

open Utf8

structure Mark (κ : Type) where
  label : List κ
  start : ℕ
  text : String

def Mark.stop {κ : Type} (mark : Mark κ) : ℕ := mark.start + mark.text.utf8ByteSize

def Mark.shift {κ : Type} (n : ℕ) (mark : Mark κ) : Mark κ := { mark with start := n + mark.start }

def Mark.below {κ : Type} (step : κ) (mark : Mark κ) : Mark κ :=
  { mark with label := step :: mark.label }

structure Marked (κ : Type) where
  text : String
  marks : List (Mark κ)

variable {κ : Type}

namespace Marked

def ofText (text : String) : Marked κ := ⟨text, []⟩

def append (r s : Marked κ) : Marked κ :=
  ⟨r.text ++ s.text, r.marks ++ s.marks.map (Mark.shift r.text.utf8ByteSize)⟩

/-- The text after a step, without a mark of its own. -/
def inside (step : κ) (r : Marked κ) : Marked κ := ⟨r.text, r.marks.map (Mark.below step)⟩

/-- The text itself is marked too. -/
def whole (r : Marked κ) : Marked κ := ⟨r.text, r.marks ++ [⟨[], 0, r.text⟩]⟩

/-- A part, after the step that leads to it. -/
def part (step : κ) (r : Marked κ) : Marked κ := inside step (whole r)

/-- No mark is at the very beginning. -/
def Open (r : Marked κ) : Prop := ∀ mark ∈ r.marks, 0 < mark.start

/-- No mark reaches the very end. -/
def Closed (r : Marked κ) : Prop := ∀ mark ∈ r.marks, mark.stop < r.text.utf8ByteSize

/-- Every mark is reached by a first step of the given kind. -/
def Heads (S : κ → Prop) (r : Marked κ) : Prop :=
  ∀ mark ∈ r.marks, ∃ step label, mark.label = step :: label ∧ S step

/-- The marks are where they say, each way leads to one of them, and the parts are nested as
their ways are, with something between parts that are not. -/
structure Fits (r : Marked κ) : Prop where
  placed : ∀ mark ∈ r.marks,
    ∃ front back, r.text = front ++ mark.text ++ back ∧ front.utf8ByteSize = mark.start
  nodup : (r.marks.map Mark.label).Nodup
  contained : ∀ mark ∈ r.marks, ∀ outer ∈ r.marks, outer.label <+: mark.label →
    outer.start ≤ mark.start ∧ mark.stop ≤ outer.stop
  ordered : r.marks.Pairwise fun mark later =>
    later.label <+: mark.label ∨ mark.stop < later.start

variable {r s : Marked κ} {S T : κ → Prop}

theorem Heads.mono (h : Heads S r) (hST : ∀ step, S step → T step) : Heads T r := by
  intro mark hmark
  obtain ⟨step, label, hlabel, hstep⟩ := h mark hmark
  exact ⟨step, label, hlabel, hST step hstep⟩

theorem Fits.stop_le (h : Fits r) {mark : Mark κ} (hmark : mark ∈ r.marks) :
    mark.stop ≤ r.text.utf8ByteSize := by
  obtain ⟨front, back, htext, hfront⟩ := h.placed mark hmark
  rw [Mark.stop, htext]
  simp only [String.utf8ByteSize_append]
  omega

theorem Fits.slice_eq (h : Fits r) {mark : Mark κ} (hmark : mark ∈ r.marks) :
    slice r.text.toList mark.start mark.stop = some mark.text.toList := by
  obtain ⟨front, back, htext, hfront⟩ := h.placed mark hmark
  apply slice_eq_some_iff.mpr
  refine ⟨front.toList, back.toList, ?_, ?_, ?_⟩
  · rw [htext, String.toList_append, String.toList_append]
  · rw [byteLen_toList, hfront]
  · rw [byteLen_append, byteLen_toList, byteLen_toList, hfront, Mark.stop]

theorem fits_ofText (text : String) : Fits (ofText text : Marked κ) where
  placed := by simp [ofText]
  nodup := by simp [ofText]
  contained := by simp [ofText]
  ordered := by simp [ofText]

theorem heads_ofText (text : String) : Heads S (ofText text) := by simp [Heads, ofText]

theorem Fits.inside (h : Fits r) (step : κ) : Fits (inside step r) where
  placed := by
    intro mark hmark
    obtain ⟨mark, hmem, rfl⟩ := List.mem_map.mp hmark
    exact h.placed mark hmem
  nodup := by
    rw [Marked.inside, List.map_map]
    have hlabels : Mark.label ∘ Mark.below step = List.cons step ∘ Mark.label := rfl
    rw [hlabels, ← List.map_map]
    exact h.nodup.map (List.cons_injective)
  contained := by
    intro mark hmark outer houter hway
    obtain ⟨mark, hmem, rfl⟩ := List.mem_map.mp hmark
    obtain ⟨outer, houterin, rfl⟩ := List.mem_map.mp houter
    exact h.contained mark hmem outer houterin (List.cons_prefix_cons.mp hway).2
  ordered := by
    apply List.pairwise_map.mpr
    apply h.ordered.imp
    rintro mark later (hway | hbefore)
    · exact .inl (List.cons_prefix_cons.mpr ⟨rfl, hway⟩)
    · exact .inr hbefore

theorem heads_inside {step : κ} (hstep : S step) : Heads S (inside step r) := by
  intro mark hmark
  obtain ⟨mark, -, rfl⟩ := List.mem_map.mp hmark
  exact ⟨step, mark.label, rfl, hstep⟩

theorem Open.inside (h : Open r) (step : κ) : Open (inside step r) := by
  intro mark hmark
  obtain ⟨mark, hmem, rfl⟩ := List.mem_map.mp hmark
  exact h mark hmem

/-- The whole has a label of its own if all parts are reached by steps. -/
theorem Fits.whole (h : Fits r) (hheads : Heads S r) : Fits (whole r) where
  placed := by
    intro mark hmark
    rcases List.mem_append.mp hmark with hmark | hmark
    · exact h.placed mark hmark
    · rw [List.mem_singleton.mp hmark]
      exact ⟨"", "", by simp [Marked.whole], rfl⟩
  nodup := by
    rw [Marked.whole, List.map_append, List.nodup_append]
    refine ⟨h.nodup, by simp, ?_⟩
    intro label hlabel label' hlabel' heq
    obtain ⟨mark, hmark, rfl⟩ := List.mem_map.mp hlabel
    obtain ⟨step, label, hcons, -⟩ := hheads mark hmark
    rw [heq] at hcons
    simp [hcons] at hlabel'
  contained := by
    intro mark hmark outer houter hway
    rcases List.mem_append.mp houter with houter | houter
    · rcases List.mem_append.mp hmark with hmark | hmark
      · exact h.contained mark hmark outer houter hway
      · rw [List.mem_singleton.mp hmark] at hway
        obtain ⟨step, label, hcons, -⟩ := hheads outer houter
        rw [hcons] at hway
        simp at hway
    · rw [List.mem_singleton.mp houter]
      refine ⟨Nat.zero_le _, ?_⟩
      rcases List.mem_append.mp hmark with hmark | hmark
      · simpa [Mark.stop] using h.stop_le hmark
      · rw [List.mem_singleton.mp hmark]
  ordered := by
    apply List.pairwise_append.mpr
    refine ⟨h.ordered, List.pairwise_singleton _ _, ?_⟩
    intro mark _ later hlater
    rw [List.mem_singleton.mp hlater]
    exact .inl List.nil_prefix

theorem Fits.part (h : Fits r) (hheads : Heads S r) (step : κ) : Fits (part step r) :=
  (h.whole hheads).inside step

theorem heads_part {step : κ} (hstep : S step) : Heads S (part step r) := heads_inside hstep

theorem Heads.append (hr : Heads S r) (hs : Heads S s) : Heads S (append r s) := by
  intro mark hmark
  rcases List.mem_append.mp hmark with hmark | hmark
  · exact hr mark hmark
  · obtain ⟨mark, hmem, rfl⟩ := List.mem_map.mp hmark
    exact hs mark hmem

theorem Open.append (hr : Open r) (hs : 0 < r.text.utf8ByteSize ∨ Open s) : Open (append r s) := by
  intro mark hmark
  rcases List.mem_append.mp hmark with hmark | hmark
  · exact hr mark hmark
  · obtain ⟨mark, hmem, rfl⟩ := List.mem_map.mp hmark
    rcases hs with hpos | hs
    · exact Nat.add_pos_left hpos _
    · exact Nat.add_pos_right _ (hs mark hmem)

theorem not_prefix_of_heads {mark mark' : Mark κ} {step step' : κ} {label label' : List κ}
    (h : mark.label = step :: label) (h' : mark'.label = step' :: label') (hne : step ≠ step') :
    ¬ mark.label <+: mark'.label := by
  rw [h, h', List.cons_prefix_cons]
  exact fun heq => hne heq.1

/-- Texts one after the other, their parts reached by different steps and not adjacent. -/
theorem Fits.append (hr : Fits r) (hs : Fits s) (hheads : Heads S r) (hheads' : Heads T s)
    (hST : ∀ step, S step → ¬ T step) (hgap : Closed r ∨ Open s) : Fits (append r s) where
  placed := by
    intro mark hmark
    rcases List.mem_append.mp hmark with hmark | hmark
    · obtain ⟨front, back, htext, hfront⟩ := hr.placed mark hmark
      refine ⟨front, back ++ s.text, ?_, hfront⟩
      rw [Marked.append, htext, String.append_assoc]
    · obtain ⟨mark, hmem, rfl⟩ := List.mem_map.mp hmark
      obtain ⟨front, back, htext, hfront⟩ := hs.placed mark hmem
      refine ⟨r.text ++ front, back, ?_, ?_⟩
      · rw [Marked.append, htext]
        simp only [Mark.shift, String.append_assoc]
      · rw [String.utf8ByteSize_append, hfront]
        rfl
  nodup := by
    rw [Marked.append, List.map_append, List.map_map]
    have hlabels : (Mark.label ∘ Mark.shift r.text.utf8ByteSize : Mark κ → List κ) = Mark.label :=
      rfl
    rw [hlabels, List.nodup_append]
    refine ⟨hr.nodup, hs.nodup, ?_⟩
    intro label hlabel label' hlabel' heq
    obtain ⟨mark, hmark, rfl⟩ := List.mem_map.mp hlabel
    obtain ⟨mark', hmark', rfl⟩ := List.mem_map.mp hlabel'
    obtain ⟨step, rest, hcons, hstep⟩ := hheads mark hmark
    obtain ⟨step', rest', hcons', hstep'⟩ := hheads' mark' hmark'
    rw [hcons, hcons'] at heq
    rw [(List.cons_eq_cons.mp heq).1] at hstep
    exact hST step' hstep hstep'
  contained := by
    intro mark hmark outer houter hway
    rcases List.mem_append.mp hmark with hmark | hmark <;>
      rcases List.mem_append.mp houter with houter | houter
    · exact hr.contained mark hmark outer houter hway
    · obtain ⟨outer, houterin, rfl⟩ := List.mem_map.mp houter
      obtain ⟨step, rest, hcons, hstep⟩ := hheads mark hmark
      obtain ⟨step', rest', hcons', hstep'⟩ := hheads' outer houterin
      apply absurd hway
      apply not_prefix_of_heads hcons' hcons
      rintro rfl
      exact hST step' hstep hstep'
    · obtain ⟨mark, hmem, rfl⟩ := List.mem_map.mp hmark
      obtain ⟨step, rest, hcons, hstep⟩ := hheads outer houter
      obtain ⟨step', rest', hcons', hstep'⟩ := hheads' mark hmem
      apply absurd hway
      apply not_prefix_of_heads hcons hcons'
      rintro rfl
      exact hST step hstep hstep'
    · obtain ⟨mark, hmem, rfl⟩ := List.mem_map.mp hmark
      obtain ⟨outer, houterin, rfl⟩ := List.mem_map.mp houter
      have hbounds := hs.contained mark hmem outer houterin hway
      simp only [Mark.shift, Mark.stop] at hbounds ⊢
      omega
  ordered := by
    apply List.pairwise_append.mpr
    refine ⟨hr.ordered, ?_, ?_⟩
    · apply List.pairwise_map.mpr
      apply hs.ordered.imp
      rintro mark later (hway | hbefore)
      · exact .inl hway
      · right
        simp only [Mark.shift, Mark.stop] at hbefore ⊢
        omega
    · intro mark hmark later hlater
      obtain ⟨later, hlaterin, rfl⟩ := List.mem_map.mp hlater
      right
      have hle := hr.stop_le hmark
      rcases hgap with hclosed | hopen
      · have hlt := hclosed mark hmark
        simp only [Mark.shift]
        omega
      · have hpos := hopen later hlaterin
        simp only [Mark.shift]
        omega

theorem Fits.afterText (hs : Fits s) (hheads : Heads T s) (text : String) :
    Fits ((ofText text).append s) := by
  have hnone : Heads (fun _ => False) (ofText text : Marked κ) := heads_ofText text
  apply (fits_ofText text).append hs hnone hheads (fun _ hfalse _ => hfalse)
  left
  simp [Closed, ofText]

theorem open_afterText {text : String} (hpos : 0 < text.utf8ByteSize) :
    Open ((ofText text).append s) := by
  apply Open.append ?_ (.inl hpos)
  simp [Open, ofText]

theorem Fits.beforeText (hr : Fits r) (hheads : Heads S r) (text : String) :
    Fits (r.append (ofText text)) := by
  have hnone : Heads (fun _ => False) (ofText text : Marked κ) := heads_ofText text
  apply hr.append (fits_ofText text) hheads hnone (fun _ _ hfalse => hfalse)
  right
  simp [Open, ofText]

theorem Fits.closed_beforeText (hr : Fits r) {text : String} (hpos : 0 < text.utf8ByteSize) :
    Closed (r.append (ofText text)) := by
  intro mark hmark
  have hmem : mark ∈ r.marks := by simpa [Marked.append, ofText] using hmark
  have hle := hr.stop_le hmem
  have hsize : (r.append (ofText text)).text.utf8ByteSize =
      r.text.utf8ByteSize + text.utf8ByteSize := String.utf8ByteSize_append ..
  omega

end Marked

end MarkedText
