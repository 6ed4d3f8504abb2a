import Facet.Flatten.Choice

/-!
# Families of choices

The choices for a part form a list without repetitions. They can even be told apart by
their selections when further selections follow, so combining the choices for the fields
of a struct keeps them apart.
-/

namespace Facet.Flatten

variable {ι : Type}

/-- Every choice so far followed by every further one. -/
def extend (bs cs : List (Choice ι)) : List (Choice ι) := bs.flatMap fun b => cs.map (b ++ ·)

theorem mem_extend {bs cs : List (Choice ι)} {c : Choice ι} :
    c ∈ extend bs cs ↔ ∃ b ∈ bs, ∃ d ∈ cs, b ++ d = c := by
  simp [extend]

theorem extend_ne_nil {bs cs : List (Choice ι)} (hbs : bs ≠ []) (hcs : cs ≠ []) :
    extend bs cs ≠ [] := by
  obtain ⟨b, hb⟩ := List.exists_mem_of_ne_nil _ hbs
  obtain ⟨c, hc⟩ := List.exists_mem_of_ne_nil _ hcs
  exact List.ne_nil_of_mem (mem_extend.mpr ⟨b, hb, c, hc, rfl⟩)

theorem extend_assoc (as bs cs : List (Choice ι)) :
    extend (extend as bs) cs = extend as (extend bs cs) := by
  simp only [extend, List.flatMap_assoc, List.flatMap_map, List.map_flatMap, List.map_map]
  simp only [Function.comp_def, Choice.append_assoc]

@[simp] theorem extend_empty (cs : List (Choice ι)) : extend [.empty] cs = cs := by
  simp [extend]

/-- A list of choices in which no two agree in their selections, not even as a beginning,
and whose fields come from pairwise different paths described by `P`. -/
structure Family (P : FieldPath → Prop) (cs : List (Choice ι)) : Prop where
  nodup : cs.Nodup
  ne_nil : cs ≠ []
  decode : ∀ c ∈ cs, ∀ c' ∈ cs, ∀ rest rest', c.selections ++ rest = c'.selections ++ rest' →
    c = c' ∧ rest = rest'
  covers : ∀ c ∈ cs, ∀ e ∈ c.entries, P e.info.path
  distinct : ∀ c ∈ cs, (c.entries.map fun e => e.info.path).Nodup

namespace Family

variable {P Q : FieldPath → Prop} {cs ds : List (Choice ι)}

theorem mono (h : Family P cs) (hPQ : ∀ q, P q → Q q) : Family Q cs :=
  { h with covers := fun c hc e he => hPQ _ (h.covers c hc e he) }

theorem empty : Family (fun _ => False) [(.empty : Choice ι)] where
  nodup := List.nodup_singleton _
  ne_nil := List.cons_ne_nil _ _
  decode c hc c' hc' rest rest' heq := by
    rw [List.mem_singleton.mp hc, List.mem_singleton.mp hc'] at heq ⊢
    exact ⟨rfl, heq⟩
  covers c hc e he := by
    rw [List.mem_singleton.mp hc] at he
    exact absurd he List.not_mem_nil
  distinct c hc := by
    rw [List.mem_singleton.mp hc]
    exact List.nodup_nil

theorem plain (info : FieldInfo ι) : Family (· = info.path) [.plain info] where
  nodup := List.nodup_singleton _
  ne_nil := List.cons_ne_nil _ _
  decode c hc c' hc' rest rest' heq := by
    rw [List.mem_singleton.mp hc, List.mem_singleton.mp hc'] at heq ⊢
    exact ⟨rfl, heq⟩
  covers c hc e he := by
    rw [List.mem_singleton.mp hc] at he
    rw [List.mem_singleton.mp he]
  distinct c hc := by
    rw [List.mem_singleton.mp hc]
    exact List.nodup_singleton _

theorem eq_of_selections (h : Family P cs) {c c' : Choice ι} (hc : c ∈ cs) (hc' : c' ∈ cs)
    (heq : c.selections = c'.selections) : c = c' :=
  (h.decode c hc c' hc' [] [] (by rw [heq])).1

theorem extend (h : Family P cs) (h' : Family Q ds) (hdisj : ∀ q, P q → ¬ Q q) :
    Family (fun q => P q ∨ Q q) (extend cs ds) where
  nodup := by
    refine List.nodup_flatMap.mpr ⟨fun a _ => ?_, ?_⟩
    · refine h'.nodup.map_on fun d hd d' hd' heq => h'.eq_of_selections hd hd' ?_
      exact List.append_cancel_left (congrArg Choice.selections heq)
    · refine h.nodup.imp_of_mem fun {a a'} ha ha' hne c hc hc' => hne ?_
      obtain ⟨d, -, rfl⟩ := List.mem_map.mp hc
      obtain ⟨d', -, heq⟩ := List.mem_map.mp hc'
      exact (h.decode a ha a' ha' _ _ (congrArg Choice.selections heq).symm).1
  ne_nil := extend_ne_nil h.ne_nil h'.ne_nil
  decode c hc c' hc' rest rest' heq := by
    obtain ⟨a, ha, d, hd, rfl⟩ := mem_extend.mp hc
    obtain ⟨a', ha', d', hd', rfl⟩ := mem_extend.mp hc'
    simp only [Choice.selections_append, List.append_assoc] at heq
    obtain ⟨rfl, htail⟩ := h.decode a ha a' ha' _ _ heq
    obtain ⟨rfl, rfl⟩ := h'.decode d hd d' hd' _ _ htail
    exact ⟨rfl, rfl⟩
  covers c hc e he := by
    obtain ⟨a, ha, d, hd, rfl⟩ := mem_extend.mp hc
    rcases List.mem_append.mp he with he | he
    · exact .inl (h.covers a ha e he)
    · exact .inr (h'.covers d hd e he)
  distinct c hc := by
    obtain ⟨a, ha, d, hd, rfl⟩ := mem_extend.mp hc
    rw [Choice.entries_append, List.map_append, List.nodup_append']
    refine ⟨h.distinct a ha, h'.distinct d hd, fun q hq hq' => ?_⟩
    obtain ⟨e, he, rfl⟩ := List.mem_map.mp hq
    obtain ⟨e', he', heq⟩ := List.mem_map.mp hq'
    exact hdisj _ (h.covers a ha e he) (heq ▸ h'.covers d hd e' he')

theorem below (h : Family P cs) (declared wraps : Bool) :
    Family P (cs.map (Choice.below declared wraps)) where
  nodup := h.nodup.map_on fun c hc c' hc' heq => by
    have hsel : (c.below declared wraps).selections = (c'.below declared wraps).selections := by
      rw [heq]
    exact h.eq_of_selections hc hc' hsel
  ne_nil := by simpa using h.ne_nil
  decode c hc c' hc' rest rest' heq := by
    obtain ⟨d, hd, rfl⟩ := List.mem_map.mp hc
    obtain ⟨d', hd', rfl⟩ := List.mem_map.mp hc'
    obtain ⟨rfl, rfl⟩ := h.decode d hd d' hd' rest rest' heq
    exact ⟨rfl, rfl⟩
  covers c hc e he := by
    obtain ⟨d, hd, rfl⟩ := List.mem_map.mp hc
    obtain ⟨e', he', rfl⟩ := List.mem_map.mp he
    exact h.covers d hd e' he'
  distinct c hc := by
    obtain ⟨d, hd, rfl⟩ := List.mem_map.mp hc
    simpa [Choice.below, Function.comp_def] using h.distinct d hd

/-- The choices for an enum: a variant, recorded by its name, and a choice for it. -/
theorem variants {vs : List (Variant ι)} {css : Variant ι → List (Choice ι)} (hne : vs ≠ [])
    (hnames : (vs.map Variant.name).Nodup) (h : ∀ v ∈ vs, Family P (css v)) (path : FieldPath)
    (enumName : String) :
    Family P (vs.flatMap fun v => (css v).map (.select ⟨path, enumName, v.name⟩)) where
  nodup := by
    refine List.nodup_flatMap.mpr ⟨fun v hv => ?_, ?_⟩
    · exact (h v hv).nodup.map_on fun c hc c' hc' heq =>
        (h v hv).eq_of_selections hc hc' (List.tail_eq_of_cons_eq (congrArg Choice.selections heq))
    · refine (List.pairwise_map.mp hnames).imp fun {v v'} hvv c hc hc' => hvv ?_
      obtain ⟨d, -, rfl⟩ := List.mem_map.mp hc
      obtain ⟨d', -, heq⟩ := List.mem_map.mp hc'
      have hhead := List.head_eq_of_cons_eq (congrArg Choice.selections heq)
      exact (congrArg VariantSelection.variantName hhead).symm
  ne_nil := by
    obtain ⟨v, hv⟩ := List.exists_mem_of_ne_nil _ hne
    obtain ⟨c, hc⟩ := List.exists_mem_of_ne_nil _ (h v hv).ne_nil
    exact List.ne_nil_of_mem (List.mem_flatMap.mpr ⟨v, hv, List.mem_map_of_mem hc⟩)
  decode c hc c' hc' rest rest' heq := by
    obtain ⟨v, hv, hc⟩ := List.mem_flatMap.mp hc
    obtain ⟨v', hv', hc'⟩ := List.mem_flatMap.mp hc'
    obtain ⟨d, hd, rfl⟩ := List.mem_map.mp hc
    obtain ⟨d', hd', rfl⟩ := List.mem_map.mp hc'
    have hname : v.name = v'.name :=
      congrArg VariantSelection.variantName (List.head_eq_of_cons_eq heq)
    obtain rfl := List.inj_on_of_nodup_map hnames hv hv' hname
    obtain ⟨rfl, rfl⟩ := (h v hv).decode d hd d' hd' rest rest' (List.tail_eq_of_cons_eq heq)
    exact ⟨rfl, rfl⟩
  covers c hc e he := by
    obtain ⟨v, hv, hc⟩ := List.mem_flatMap.mp hc
    obtain ⟨d, hd, rfl⟩ := List.mem_map.mp hc
    exact (h v hv).covers d hd e he
  distinct c hc := by
    obtain ⟨v, hv, hc⟩ := List.mem_flatMap.mp hc
    obtain ⟨d, hd, rfl⟩ := List.mem_map.mp hc
    exact (h v hv).distinct d hd

end Family

end Facet.Flatten
