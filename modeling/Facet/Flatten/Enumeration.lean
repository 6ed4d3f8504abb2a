import Facet.Flatten.ChoiceFamily
import Facet.Flatten.Recording
import Facet.Flatten.WireKeys
import Facet.Lib.ExceptList
import Facet.Lib.OptionState

/-!
# One resolution per choice

The analysis forks its configurations at every flattened enum. With enough fuel it ends,
and its result lists one resolution for each choice, unless a choice has two fields for
one key, which it reports. Resolutions leave the fields below a flattened field optional
when the field is declared as an `Option`; an `Option` behind a transparent wrapper is
unwrapped without leaving a trace.
-/

namespace Facet.Flatten

open Filter

variable {ι : Type} {shapes : Shapes ι} {b : SchemaBuilder ι}

theorem Unwraps.withPath {s t : ι} {ws : List ι} (h : Unwraps shapes s ws t) {n : ℕ}
    (hn : ws.length < n) (path : FieldPath) :
    unwrapTransparentWithPath shapes n s path = .ok (t, path ++ ws.map fun _ => .field "0") := by
  induction h generalizing n path with
  | done hinner =>
    obtain ⟨m, rfl⟩ := Nat.exists_eq_succ_of_ne_zero (Nat.ne_of_gt hn)
    simp [unwrapTransparentWithPath, hinner]
  | layer hinner _ ih =>
    obtain ⟨m, rfl⟩ := Nat.exists_eq_succ_of_ne_zero (Nat.ne_of_gt (Nat.zero_lt_of_lt hn))
    rw [unwrapTransparentWithPath, hinner]
    dsimp only
    rw [ih (Nat.lt_of_succ_lt_succ hn)]
    simp [FieldPath.pushField]

theorem Unwraps.transparent {s t : ι} {ws : List ι} (h : Unwraps shapes s ws t) {n : ℕ}
    (hn : ws.length < n) : unwrapTransparent shapes n s = .ok t := by
  induction h generalizing n with
  | done hinner =>
    obtain ⟨m, rfl⟩ := Nat.exists_eq_succ_of_ne_zero (Nat.ne_of_gt hn)
    simp [unwrapTransparent, hinner]
  | layer hinner _ ih =>
    obtain ⟨m, rfl⟩ := Nat.exists_eq_succ_of_ne_zero (Nat.ne_of_gt (Nat.zero_lt_of_lt hn))
    rw [unwrapTransparent, hinner]
    exact ih (Nat.lt_of_succ_lt_succ hn)

theorem Unwraps.unique {s t t' : ι} {ws ws' : List ι} (h : Unwraps shapes s ws t)
    (h' : Unwraps shapes s ws' t') : ws = ws' ∧ t = t' := by
  induction h generalizing ws' with
  | done hinner =>
    cases h' with
    | done => exact ⟨rfl, rfl⟩
    | layer hinner' => simp [hinner] at hinner'
  | layer hinner _ ih =>
    cases h' with
    | done hinner' => simp [hinner] at hinner'
    | layer hinner' h' =>
      obtain rfl := Option.some.inj (hinner.symm.trans hinner')
      obtain ⟨rfl, rfl⟩ := ih h'
      exact ⟨rfl, rfl⟩

theorem Effective.unique {s t t' : ι} (h : Effective shapes s t) (h' : Effective shapes s t') :
    t = t' := by
  induction h with
  | done hunwraps hproxy =>
    cases h' with
    | done hunwraps' _ => exact (hunwraps.unique hunwraps').2
    | proxy hunwraps' hproxy' _ =>
      obtain ⟨-, rfl⟩ := hunwraps.unique hunwraps'
      simp [hproxy] at hproxy'
  | proxy hunwraps hproxy _ ih =>
    cases h' with
    | done hunwraps' hproxy' =>
      obtain ⟨-, rfl⟩ := hunwraps.unique hunwraps'
      simp [hproxy] at hproxy'
    | proxy hunwraps' hproxy' h' =>
      obtain ⟨-, rfl⟩ := hunwraps.unique hunwraps'
      obtain rfl := Option.some.inj (hproxy.symm.trans hproxy')
      exact ih h'

theorem Effective.eventually {s t : ι} (h : Effective shapes s t) :
    ∀ᶠ n in atTop, unwrapToEffectiveShape shapes n s = .ok t := by
  induction h with
  | @done s t ws hunwraps hproxy =>
    rw [← eventually_add_iff 1]
    filter_upwards [eventually_gt_atTop ws.length] with n hn
    simp [unwrapToEffectiveShape, hunwraps.transparent hn, hproxy, Bind.bind, Except.bind]
  | @proxy s t p u ws hunwraps hproxy _ ih =>
    rw [← eventually_add_iff 1]
    filter_upwards [eventually_gt_atTop ws.length, ih] with n hn hp
    simp [unwrapToEffectiveShape, hunwraps.transparent hn, hproxy, hp, Bind.bind, Except.bind]

theorem exists_unwraps_of_withPath {n : ℕ} {s t : ι} {path path' : FieldPath}
    (h : unwrapTransparentWithPath shapes n s path = .ok (t, path')) :
    ∃ ws, Unwraps shapes s ws t ∧ path' = path ++ ws.map fun _ => .field "0" := by
  induction n generalizing s path with
  | zero => cases h
  | succ n ih =>
    rw [unwrapTransparentWithPath] at h
    cases hinner : (shapes s).inner with
    | none =>
      simp only [hinner] at h
      cases h
      exact ⟨[], .done hinner, (List.append_nil _).symm⟩
    | some u =>
      simp only [hinner] at h
      obtain ⟨ws, hws, rfl⟩ := ih h
      refine ⟨s :: ws, .layer hinner hws, ?_⟩
      rw [FieldPath.pushField, List.append_assoc]
      rfl

theorem exists_unwraps_of_transparent {n : ℕ} {s t : ι}
    (h : unwrapTransparent shapes n s = .ok t) : ∃ ws, Unwraps shapes s ws t := by
  induction n generalizing s with
  | zero => cases h
  | succ n ih =>
    rw [unwrapTransparent] at h
    cases hinner : (shapes s).inner with
    | none =>
      simp only [hinner] at h
      cases h
      exact ⟨[], .done hinner⟩
    | some u =>
      simp only [hinner] at h
      obtain ⟨ws, hws⟩ := ih h
      exact ⟨s :: ws, .layer hinner hws⟩

theorem effective_of_unwrap {n : ℕ} {s t : ι}
    (h : unwrapToEffectiveShape shapes n s = .ok t) : Effective shapes s t := by
  induction n generalizing s with
  | zero => cases h
  | succ n ih =>
    rw [unwrapToEffectiveShape] at h
    obtain ⟨u, hu, h⟩ := ExceptList.exists_of_bind_ok h
    obtain ⟨ws, hws⟩ := exists_unwraps_of_transparent hu
    cases hproxy : (shapes u).proxy with
    | none =>
      simp only [hproxy] at h
      cases h
      exact .done hws hproxy
    | some p =>
      simp only [hproxy] at h
      exact .proxy hws hproxy (ih h)

/-- The path is that of the field or goes on below it. -/
def Under (path : FieldPath) (f : Field ι) (q : FieldPath) : Prop := path.pushField f.name <+: q

/-- Where the fields that a part contributes come from. -/
def Part.Covers (path : FieldPath) : Part ι → FieldPath → Prop
  | .fields fs, q => ∃ f ∈ fs, Under path f q
  | .flattened f, q => Under path f q
  | .variant _, q => path <+: q

/-- None of the choices has a field from a path described by `P`. -/
def Avoid (P : FieldPath → Prop) (bs : List (Choice ι)) : Prop :=
  ∀ c ∈ bs, ∀ e ∈ c.entries, ¬ P e.info.path

theorem Under.name_eq {path q : FieldPath} {f g : Field ι} (hf : Under path f q)
    (hg : Under path g q) : f.name = g.name := by
  have hlen : (path.pushField f.name).length ≤ (path.pushField g.name).length := by
    simp [FieldPath.pushField]
  have hprefix := List.prefix_of_prefix_length_le hf hg hlen
  have heq := hprefix.eq_of_length (by simp [FieldPath.pushField])
  have hlast := List.append_cancel_left heq
  simpa using hlast

theorem pushField_prefix_flattenPath (path : FieldPath) (f : Field ι) (ws : List ι) :
    path.pushField f.name <+: flattenPath path f ws := List.prefix_append _ _

theorem under_of_fields {path : FieldPath} {f : Field ι} {ws : List ι} {fs : List (Field ι)}
    {q : FieldPath} (h : Part.Covers (flattenPath path f ws) (.fields fs) q) : Under path f q := by
  obtain ⟨g, -, hg⟩ := h
  exact ((pushField_prefix_flattenPath path f ws).trans (List.prefix_append _ _)).trans hg

theorem under_of_variant {path : FieldPath} {f : Field ι} {ws : List ι} {v : Variant ι}
    {name : String} {q : FieldPath}
    (h : Part.Covers ((flattenPath path f ws).pushVariant f.name name) (.variant v) q) :
    Under path f q :=
  ((pushField_prefix_flattenPath path f ws).trans (List.prefix_append _ _)).trans h

variable (shapes b) in
/-- At this fuel one field takes the configurations for `bs` to those for all its
choices. -/
def FieldStep (n : ℕ) (f : Field ι) (path : FieldPath) (cs : List (Choice ι)) : Prop :=
  ∀ keyPrefix rs bs, bs ≠ [] → List.Forall₂ Computes rs bs → Avoid (Under path f) bs →
    Enumerated (extend bs cs) (b.analyzeFieldIntoConfigs shapes n f path keyPrefix rs)

variable (shapes b) in
/-- At this fuel the part is analysed to the choices `cs`. -/
def Analysed (n : ℕ) (path : FieldPath) (cs : List (Choice ι)) : Part ι → Prop
  | .fields fs => ∀ keyPrefix rs bs, bs ≠ [] → List.Forall₂ Computes rs bs →
      Avoid (Part.Covers path (.fields fs)) bs →
      Enumerated (extend bs cs) (fs.foldlM (fun configs f =>
        b.analyzeFieldIntoConfigs shapes n f path keyPrefix configs) rs)
  | .flattened f => ∀ keyPrefix rs bs, bs ≠ [] → List.Forall₂ Computes rs bs →
      Avoid (Under path f) bs →
      Enumerated (extend bs cs) (b.analyzeFlattenedFieldIntoConfigs shapes n f path keyPrefix rs)
  | .variant v => ∀ keyPrefix, Enumerated cs (b.analyzeVariantContent shapes n v path keyPrefix)

theorem fieldStep_plain {n : ℕ} {f : Field ι} {path : FieldPath} (hf : f.isFlattened = false)
    (hcollects : Collects shapes n f.shape) :
    FieldStep shapes b (n + 1) f path [.plain (fieldKeyInfo shapes b path f)] := by
  intro keyPrefix rs bs _ hrs havoid
  rw [SchemaBuilder.analyzeFieldIntoConfigs, if_neg (by simp [hf])]
  have hadd : Enumerated (bs.map (· ++ .plain (fieldKeyInfo shapes b path f)))
      (rs.mapM fun config =>
        orDuplicateField (config.addField (fieldKeyInfo shapes b path f)) >>= fun config =>
          pure (config.addKeyPath (keyPrefix ++ [f.effectiveName]))) := by
    refine .mapM (forall₂_imp_of_mem hrs fun r c hc hr => ?_)
    refine (hr.addField fun e he heq => havoid c hc e he ?_).keepPath _
    rw [heq]
    exact List.prefix_rfl
  have hextend : extend bs [.plain (fieldKeyInfo shapes b path f)] =
      bs.map (· ++ .plain (fieldKeyInfo shapes b path f)) := by
    simp [extend, List.map_eq_flatMap]
  rw [hextend]
  refine hadd.bind (fun c hc hclash => ⟨c, hc, hclash⟩) fun rs' hrs' => ?_
  exact .keptAll hrs' (hcollects.shape _ rs')

theorem fieldStep_flat {n : ℕ} {f : Field ι} {path : FieldPath} {cs : List (Choice ι)}
    (hf : f.isFlattened = true) (h : Analysed shapes b n path cs (.flattened f)) :
    FieldStep shapes b (n + 1) f path cs := by
  intro keyPrefix rs bs hbs hrs havoid
  rw [SchemaBuilder.analyzeFieldIntoConfigs, if_pos hf]
  exact h keyPrefix rs bs hbs hrs havoid

theorem analysed_nil (n : ℕ) (path : FieldPath) :
    Analysed shapes b n path [.empty] (.fields []) := by
  intro keyPrefix rs bs _ hrs _
  have hextend : extend bs [.empty] = bs := by simp [extend]
  rw [hextend]
  exact hrs

theorem analysed_cons {n : ℕ} {f : Field ι} {fs : List (Field ι)} {path : FieldPath}
    {cs₁ cs : List (Choice ι)} (hname : f.name ∉ fs.map Field.name) (hne₁ : cs₁ ≠ [])
    (hcovers : ∀ c ∈ cs₁, ∀ e ∈ c.entries, Under path f e.info.path) (hne : cs ≠ [])
    (hstep : FieldStep shapes b n f path cs₁)
    (h : Analysed shapes b n path cs (.fields fs)) :
    Analysed shapes b n path (extend cs₁ cs) (.fields (f :: fs)) := by
  intro keyPrefix rs bs hbs hrs havoid
  rw [List.foldlM_cons, ← extend_assoc]
  have hfirst := hstep keyPrefix rs bs hbs hrs fun c hc e he hunder =>
    havoid c hc e he ⟨f, List.mem_cons_self, hunder⟩
  refine hfirst.bind (fun c hc hclash => ?_) fun rs' hrs' =>
    h keyPrefix rs' _ (extend_ne_nil hbs hne₁) hrs' ?_
  · obtain ⟨d, hd⟩ := List.exists_mem_of_ne_nil _ hne
    exact ⟨c ++ d, mem_extend.mpr ⟨c, hc, d, hd, rfl⟩, hclash.append_left d⟩
  · intro c hc e he ⟨g, hg, hunder⟩
    obtain ⟨a, ha, d, hd, rfl⟩ := mem_extend.mp hc
    rcases List.mem_append.mp he with he | he
    · exact havoid a ha e he ⟨g, List.mem_cons_of_mem f hg, hunder⟩
    · have heq := (hcovers d hd e he).name_eq hunder
      exact hname (heq ▸ List.mem_map_of_mem hg)

/-- Analysing fields on their own starts with one empty configuration. -/
theorem Analysed.fromNew {n : ℕ} {fs : List (Field ι)} {path : FieldPath} {cs : List (Choice ι)}
    (h : Analysed shapes b n path cs (.fields fs)) (keyPrefix : KeyPath) :
    Enumerated cs (fs.foldlM (fun configs f =>
      b.analyzeFieldIntoConfigs shapes n f path keyPrefix configs) [.new]) := by
  rw [← extend_empty cs]
  refine h keyPrefix [.new] [.empty] (List.cons_ne_nil _ _) (.cons .new .nil) fun c hc e he => ?_
  rw [List.mem_singleton.mp hc] at he
  exact absurd he List.not_mem_nil

theorem unwrapOptionalFlatten_eq (f : Field ι) :
    unwrapOptionalFlatten shapes f = (flattenStart shapes f, isOptionType (shapes f.shape)) := by
  unfold unwrapOptionalFlatten flattenStart unwrapOptionType isOptionType
  cases (shapes f.shape).def with
  | _ => rfl

theorem ok_bind {α β : Type} (x : α) (next : α → Analysis β) : (.ok x >>= next) = next x := rfl

namespace SchemaBuilder

variable (shapes b) in
/-- What the analysis of a flattened enum does for one configuration and one variant. -/
def forkVariant (n : ℕ) (field : Field ι) (fieldPath : FieldPath) (keyPrefix : KeyPath)
    (isOptionalFlatten : Bool) (s : ι) (base : Resolution ι) (variant : Variant ι) :
    Analysis (List (Resolution ι)) := do
  let forked := base.addVariantSelection fieldPath (shapes s).typeIdentifier variant.name
  let variantPath := fieldPath.pushVariant field.name variant.name
  match b.reprOf shapes s with
  | .externallyTagged =>
    let forked ← orDuplicateField ((forked.addKeyPath (keyPrefix ++ [variant.name])).addField
      (selectorField variant.name variantPath isOptionalFlatten s field))
    let forked ← collectVariantFieldsKeyPathsOnly shapes n variant (keyPrefix ++ [variant.name])
      forked
    return [forked]
  | .flattened =>
    let variantConfigs ← analyzeVariantContent shapes b n variant variantPath keyPrefix
    mergeEach forked (markOptionalIf isOptionalFlatten variantConfigs)
  | .internallyTagged tag =>
    let forked ← orDuplicateField ((forked.addKeyPath (keyPrefix ++ [tag])).addField
      (selectorField tag variantPath isOptionalFlatten s field))
    let variantConfigs ← analyzeVariantContent shapes b n variant variantPath keyPrefix
    mergeEach forked (markOptionalIf isOptionalFlatten variantConfigs)
  | .adjacentlyTagged tag content =>
    let forked ← orDuplicateField ((forked.addKeyPath (keyPrefix ++ [tag])).addField
      (selectorField tag variantPath isOptionalFlatten s field))
    let forked ← collectVariantFieldsKeyPathsOnly shapes n variant (keyPrefix ++ [content])
      (forked.addKeyPath (keyPrefix ++ [content]))
    return [forked]

theorem analyzeFlattened_enum {n : ℕ} {f : Field ι} {path fieldPath : FieldPath} {s : ι}
    {en : EnumType ι} (hunwrap : unwrapTransparentWithPath shapes n (flattenStart shapes f)
      (path.pushField f.name) = .ok (s, fieldPath))
    (hty : (shapes s).ty = .user (.enum en)) (keyPrefix : KeyPath)
    (rs : List (Resolution ι)) :
    b.analyzeFlattenedFieldIntoConfigs shapes (n + 1) f path keyPrefix rs = (do
      let forks ← rs.mapM fun base => do
        let forked ← en.variants.mapM
          (b.forkVariant shapes n f fieldPath keyPrefix (isOptionType (shapes f.shape)) s base)
        return forked.flatten
      return forks.flatten) := by
  rw [analyzeFlattenedFieldIntoConfigs, unwrapOptionalFlatten_eq]
  simp only [hunwrap, ok_bind, hty]
  rfl

end SchemaBuilder

/-- Merging the configurations for the contents of a flattened field into those before it. -/
theorem mergeAll {bs cs : List (Choice ι)} {rs structConfigs : List (Resolution ι)} {f : Field ι}
    {path : FieldPath} (hrs : List.Forall₂ Computes rs bs) (havoid : Avoid (Under path f) bs)
    (hconfigs : List.Forall₂ Computes structConfigs cs)
    (hcovers : ∀ c ∈ cs, ∀ e ∈ c.entries, Under path f e.info.path) :
    Enumerated (extend bs cs)
      (rs.mapM (fun base => SchemaBuilder.mergeEach base structConfigs) >>= fun merged =>
        pure merged.flatten) := by
  refine .flatMapM (forall₂_imp_of_mem hrs fun r c hc hr => .mergeEach hr hconfigs ?_)
  intro d hd e he e' he' heq
  exact havoid c hc e he (heq ▸ hcovers d hd e' he')

theorem analysed_struct {n : ℕ} {f : Field ι} {ws : List ι} {t : ι} {st : StructType ι}
    {path : FieldPath} {cs : List (Choice ι)} (hunwraps : Unwraps shapes (flattenStart shapes f) ws t)
    (hty : (shapes t).ty = .user (.struct st)) (hn : ws.length ≤ n)
    (hcovers : ∀ c ∈ cs, ∀ e ∈ c.entries, Under path f e.info.path)
    (h : Analysed shapes b n (flattenPath path f ws) cs (.fields st.fields)) :
    Analysed shapes b (n + 2) path (cs.map (Choice.belowField shapes f ws)) (.flattened f) := by
  intro keyPrefix rs bs hbs hrs havoid
  rw [SchemaBuilder.analyzeFlattenedFieldIntoConfigs, unwrapOptionalFlatten_eq]
  dsimp only
  rw [hunwraps.withPath (Nat.lt_succ_of_le hn), ok_bind]
  dsimp only
  rw [hty]
  dsimp only
  rw [SchemaBuilder.analyzeStruct]
  refine (h.fromNew keyPrefix).bind (fun c hc hclash => ?_) fun configs hconfigs => ?_
  · obtain ⟨a, ha⟩ := List.exists_mem_of_ne_nil _ hbs
    exact ⟨_, mem_extend.mpr ⟨a, ha, _, List.mem_map_of_mem hc, rfl⟩,
      (hclash.below _ _).append_right a⟩
  · refine mergeAll hrs havoid (Enumerated.markOptionalIf hconfigs _ _) fun c hc e he => ?_
    obtain ⟨d, hd, rfl⟩ := List.mem_map.mp hc
    obtain ⟨e', he', rfl⟩ := List.mem_map.mp he
    exact hcovers d hd e' he'

variable (shapes) in
/-- The choices for a flattened enum, given those for each variant. -/
def enumChoices (f : Field ι) (path : FieldPath) (ws : List ι) (enumName : String)
    (vs : List (Variant ι)) (css : Variant ι → List (Choice ι)) : List (Choice ι) :=
  vs.flatMap fun v => ((css v).map (Choice.belowField shapes f ws)).map
    (.select ⟨flattenPath path f ws, enumName, v.name⟩)

theorem variantFork {n : ℕ} {f : Field ι} {ws : List ι} {path : FieldPath} {v : Variant ι}
    {cs : List (Choice ι)} {r : Resolution ι} {c : Choice ι} {enumName : String}
    (keyPrefix : KeyPath) (hr : Computes r c) (havoid : ∀ e ∈ c.entries, ¬ Under path f e.info.path)
    (hcovers : ∀ c ∈ cs, ∀ e ∈ c.entries, Under path f e.info.path)
    (h : Analysed shapes b n ((flattenPath path f ws).pushVariant f.name v.name) cs (.variant v)) :
    Enumerated
      ((cs.map (Choice.belowField shapes f ws)).map fun d =>
        c ++ d.select ⟨flattenPath path f ws, enumName, v.name⟩)
      (b.analyzeVariantContent shapes n v ((flattenPath path f ws).pushVariant f.name v.name)
          keyPrefix >>= fun variantConfigs =>
        SchemaBuilder.mergeEach (r.addVariantSelection (flattenPath path f ws) enumName v.name)
          (SchemaBuilder.markOptionalIf (isOptionType (shapes f.shape)) variantConfigs)) := by
  refine (h keyPrefix).bind (fun d hd hclash => ?_) fun configs hconfigs => ?_
  · refine ⟨_, List.mem_map_of_mem (List.mem_map_of_mem hd), Choice.Clashes.append_right ?_ c⟩
    exact hclash.below _ _
  · have hmerged := Enumerated.mergeEach (hr.addVariantSelection (flattenPath path f ws) enumName v.name)
      (Enumerated.markOptionalIf hconfigs (isOptionType (shapes f.shape)) (wrapsOption shapes f ws))
      (fun d hd e he e' he' heq => ?_)
    · simp only [Choice.append_select] at hmerged
      exact hmerged
    · obtain ⟨d', hd', rfl⟩ := List.mem_map.mp hd
      obtain ⟨e'', he'', rfl⟩ := List.mem_map.mp he'
      have he : e ∈ c.entries := by simpa [Choice.select, Choice.empty] using he
      exact havoid e he (heq ▸ hcovers d' hd' e'' he'')

theorem analysed_enum {n : ℕ} {f : Field ι} {ws : List ι} {t : ι} {en : EnumType ι}
    {path : FieldPath} {css : Variant ι → List (Choice ι)}
    (hunwraps : Unwraps shapes (flattenStart shapes f) ws t)
    (hty : (shapes t).ty = .user (.enum en))
    (hrepr : (if b.autoDetectEnumRepr then EnumRepr.fromShape (shapes t) else b.enumRepr) =
      .flattened) (hn : ws.length < n)
    (hcovers : ∀ v ∈ en.variants, ∀ c ∈ css v, ∀ e ∈ c.entries, Under path f e.info.path)
    (h : ∀ v ∈ en.variants,
      Analysed shapes b n ((flattenPath path f ws).pushVariant f.name v.name) (css v) (.variant v)) :
    Analysed shapes b (n + 1) path
      (enumChoices shapes f path ws (shapes t).typeIdentifier en.variants css) (.flattened f) := by
  intro keyPrefix rs bs hbs hrs havoid
  rw [SchemaBuilder.analyzeFlattenedFieldIntoConfigs, unwrapOptionalFlatten_eq]
  dsimp only
  rw [hunwraps.withPath hn, ok_bind]
  dsimp only
  rw [hty]
  dsimp only
  rw [hrepr]
  dsimp only
  refine .flatMapM (forall₂_imp_of_mem hrs fun r c hc hr => ?_)
  rw [enumChoices, List.map_flatMap]
  refine .flatMapM (List.forall₂_same.mpr fun v hv => ?_)
  rw [List.map_map]
  exact variantFork keyPrefix hr (havoid c hc) (hcovers v hv) (h v hv)

theorem analysed_newtype {n : ℕ} {v : Variant ι} {f : Field ι} {t : ι} {st : StructType ι}
    {path : FieldPath} {cs : List (Choice ι)} (hnew : newtypeField v = some f)
    (heffective : unwrapToEffectiveShape shapes (n + 1) f.shape = .ok t)
    (hty : (shapes t).ty = .user (.struct st))
    (h : Analysed shapes b n (path.pushField "0") cs (.fields st.fields)) :
    Analysed shapes b (n + 2) path cs (.variant v) := by
  intro keyPrefix
  rw [SchemaBuilder.analyzeVariantContent, hnew]
  dsimp only
  rw [heffective, ok_bind, hty]
  dsimp only
  rw [SchemaBuilder.analyzeStruct]
  exact h.fromNew keyPrefix

theorem analysed_payload {n : ℕ} {v : Variant ι} {f : Field ι} {t : ι}
    {path : FieldPath} {cs : List (Choice ι)} (hnew : newtypeField v = some f)
    (heffective : unwrapToEffectiveShape shapes n f.shape = .ok t)
    (hty : ∀ st, (shapes t).ty ≠ .user (.struct st))
    (h : Analysed shapes b n path cs (.fields v.data.fields)) :
    Analysed shapes b (n + 1) path cs (.variant v) := by
  intro keyPrefix
  rw [SchemaBuilder.analyzeVariantContent, hnew]
  dsimp only
  rw [heffective, ok_bind]
  split
  · next st hst => exact absurd hst (hty st)
  · exact h.fromNew keyPrefix

theorem analysed_variant {n : ℕ} {v : Variant ι} {path : FieldPath} {cs : List (Choice ι)}
    (hnew : newtypeField v = none) (h : Analysed shapes b n path cs (.fields v.data.fields)) :
    Analysed shapes b (n + 1) path cs (.variant v) := by
  intro keyPrefix
  rw [SchemaBuilder.analyzeVariantContent, hnew]
  exact h.fromNew keyPrefix

variable (shapes b) in
/-- The choices for a part, in the order of the analysis. -/
structure EnumeratedBy (path : FieldPath) (part : Part ι) (cs : List (Choice ι)) : Prop where
  mem_iff : ∀ c, c ∈ cs ↔ Chosen shapes b part path c
  family : Family (part.Covers path) cs
  analysed : ∀ᶠ n in atTop, Analysed shapes b n path cs part

theorem EnumeratedBy.nil (path : FieldPath) :
    EnumeratedBy shapes b path (.fields []) [.empty] where
  mem_iff c := by
    rw [List.mem_singleton]
    constructor
    · rintro rfl
      exact .nil
    · intro h
      cases h
      rfl
  family := Family.empty.mono fun _ => False.elim
  analysed := .of_forall fun n => analysed_nil n path

/-- The choices for one field are combined with those for the fields after it. -/
theorem EnumeratedBy.cons {f : Field ι} {fs : List (Field ι)} {path : FieldPath}
    {cs₁ cs : List (Choice ι)} (hname : f.name ∉ fs.map Field.name)
    (hmem : ∀ c, Chosen shapes b (.fields (f :: fs)) path c ↔
      ∃ a ∈ cs₁, ∃ d, Chosen shapes b (.fields fs) path d ∧ a ++ d = c)
    (hfamily : Family (Under path f) cs₁)
    (hstep : ∀ᶠ n in atTop, FieldStep shapes b n f path cs₁)
    (h : EnumeratedBy shapes b path (.fields fs) cs) :
    EnumeratedBy shapes b path (.fields (f :: fs)) (extend cs₁ cs) where
  mem_iff c := by simp only [mem_extend, hmem, h.mem_iff]
  family := by
    have hdisj (q : FieldPath) (hq : Under path f q) : ¬ Part.Covers path (.fields fs) q := by
      rintro ⟨g, hg, hq'⟩
      exact hname (hq.name_eq hq' ▸ List.mem_map_of_mem hg)
    refine (hfamily.extend h.family hdisj).mono fun q hq => ?_
    rcases hq with hq | ⟨g, hg, hq⟩
    · exact ⟨f, List.mem_cons_self, hq⟩
    · exact ⟨g, List.mem_cons_of_mem f hg, hq⟩
  analysed := by
    filter_upwards [hstep, h.analysed] with n hstep hrest
    exact analysed_cons hname hfamily.ne_nil hfamily.covers h.family.ne_nil hstep hrest

theorem EnumeratedBy.plain {f : Field ι} {fs : List (Field ι)} {path : FieldPath}
    {cs : List (Choice ι)} (hf : f.isFlattened = false) (hname : f.name ∉ fs.map Field.name)
    (hfinite : Finite shapes f.shape) (h : EnumeratedBy shapes b path (.fields fs) cs) :
    EnumeratedBy shapes b path (.fields (f :: fs))
      (extend [.plain (fieldKeyInfo shapes b path f)] cs) := by
  refine .cons hname (fun c => ?_) ((Family.plain _).mono ?_) ?_ h
  · constructor
    · intro hc
      cases hc with
      | plain _ hc => exact ⟨_, List.mem_singleton_self _, _, hc, rfl⟩
      | flat hf' => simp [hf] at hf'
    · rintro ⟨a, ha, d, hd, rfl⟩
      rw [List.mem_singleton.mp ha]
      exact .plain hf hd
  · rintro q rfl
    exact List.prefix_rfl
  · rw [← eventually_add_iff 1]
    exact hfinite.collects.mono fun n hn => fieldStep_plain hf hn

theorem EnumeratedBy.flat {f : Field ι} {fs : List (Field ι)} {path : FieldPath}
    {cs₁ cs : List (Choice ι)} (hf : f.isFlattened = true) (hname : f.name ∉ fs.map Field.name)
    (h₁ : EnumeratedBy shapes b path (.flattened f) cs₁)
    (h : EnumeratedBy shapes b path (.fields fs) cs) :
    EnumeratedBy shapes b path (.fields (f :: fs)) (extend cs₁ cs) := by
  refine .cons hname (fun c => ?_) h₁.family ?_ h
  · constructor
    · intro hc
      cases hc with
      | plain hf' => simp [hf] at hf'
      | flat _ hc₁ hc => exact ⟨_, (h₁.mem_iff _).mpr hc₁, _, hc, rfl⟩
    · rintro ⟨a, ha, d, hd, rfl⟩
      exact .flat hf ((h₁.mem_iff a).mp ha) hd
  · rw [← eventually_add_iff 1]
    exact h₁.analysed.mono fun n hn => fieldStep_flat hf hn

theorem EnumeratedBy.struct {f : Field ι} {ws : List ι} {t : ι} {st : StructType ι}
    {path : FieldPath} {cs : List (Choice ι)}
    (hunwraps : Unwraps shapes (flattenStart shapes f) ws t)
    (hty : (shapes t).ty = .user (.struct st))
    (h : EnumeratedBy shapes b (flattenPath path f ws) (.fields st.fields) cs) :
    EnumeratedBy shapes b path (.flattened f) (cs.map (Choice.belowField shapes f ws)) where
  mem_iff c := by
    rw [List.mem_map]
    constructor
    · rintro ⟨d, hd, rfl⟩
      exact .struct hunwraps hty ((h.mem_iff d).mp hd)
    · intro hc
      cases hc with
      | struct hunwraps' hty' hc =>
        obtain ⟨rfl, rfl⟩ := hunwraps.unique hunwraps'
        obtain rfl : st = _ := by simpa [hty] using hty'
        exact ⟨_, (h.mem_iff _).mpr hc, rfl⟩
      | enum hunwraps' hty' =>
        obtain ⟨rfl, rfl⟩ := hunwraps.unique hunwraps'
        simp [hty] at hty'
  family := (h.family.below _ _).mono fun _ => under_of_fields
  analysed := by
    rw [← eventually_add_iff 2]
    filter_upwards [h.analysed, eventually_ge_atTop ws.length] with n hn hlen
    exact analysed_struct hunwraps hty hlen
      (fun c hc e he => under_of_fields (h.family.covers c hc e he)) hn

theorem EnumeratedBy.enum {f : Field ι} {ws : List ι} {t : ι} {en : EnumType ι}
    {path : FieldPath} {css : Variant ι → List (Choice ι)}
    (hunwraps : Unwraps shapes (flattenStart shapes f) ws t)
    (hty : (shapes t).ty = .user (.enum en))
    (hrepr : (if b.autoDetectEnumRepr then EnumRepr.fromShape (shapes t) else b.enumRepr) =
      .flattened) (hne : en.variants ≠ []) (hnames : (en.variants.map Variant.name).Nodup)
    (h : ∀ v ∈ en.variants,
      EnumeratedBy shapes b ((flattenPath path f ws).pushVariant f.name v.name) (.variant v) (css v)) :
    EnumeratedBy shapes b path (.flattened f)
      (enumChoices shapes f path ws (shapes t).typeIdentifier en.variants css) where
  mem_iff c := by
    simp only [enumChoices, List.mem_flatMap, List.map_map, List.mem_map, Function.comp_apply]
    constructor
    · rintro ⟨v, hv, d, hd, rfl⟩
      exact .enum hunwraps hty hv (((h v hv).mem_iff d).mp hd)
    · intro hc
      cases hc with
      | struct hunwraps' hty' =>
        obtain ⟨rfl, rfl⟩ := hunwraps.unique hunwraps'
        simp [hty] at hty'
      | @enum _ _ _ _ _ v d hunwraps' hty' hv hc =>
        obtain ⟨rfl, rfl⟩ := hunwraps.unique hunwraps'
        obtain rfl : en = _ := by simpa [hty] using hty'
        exact ⟨v, hv, d, ((h v hv).mem_iff d).mpr hc, rfl⟩
  family := .variants hne hnames
    (fun v hv => ((h v hv).family.below _ _).mono fun _ => under_of_variant) _ _
  analysed := by
    rw [← eventually_add_iff 1]
    have hall : ∀ᶠ n in atTop, ∀ v ∈ en.variants, Analysed shapes b n
        ((flattenPath path f ws).pushVariant f.name v.name) (css v) (.variant v) :=
      (eventually_all_finite (List.finite_toSet _)).mpr fun v hv => (h v hv).analysed
    filter_upwards [hall, eventually_gt_atTop ws.length] with n hn hlen
    exact analysed_enum hunwraps hty hrepr hlen
      (fun v hv c hc e he => under_of_variant ((h v hv).family.covers c hc e he)) hn

theorem EnumeratedBy.newtype {v : Variant ι} {f : Field ι} {t : ι} {st : StructType ι}
    {path : FieldPath} {cs : List (Choice ι)} (hnew : newtypeField v = some f)
    (heffective : Effective shapes f.shape t) (hty : (shapes t).ty = .user (.struct st))
    (h : EnumeratedBy shapes b (path.pushField "0") (.fields st.fields) cs) :
    EnumeratedBy shapes b path (.variant v) cs where
  mem_iff c := by
    rw [h.mem_iff]
    constructor
    · exact .newtype hnew heffective hty
    · intro hc
      cases hc with
      | newtype hnew' heffective' hty' hc =>
        obtain rfl := Option.some.inj (hnew.symm.trans hnew')
        obtain rfl := heffective.unique heffective'
        obtain rfl : st = _ := by simpa [hty] using hty'
        exact hc
      | payload hnew' heffective' hty' =>
        obtain rfl := Option.some.inj (hnew.symm.trans hnew')
        obtain rfl := heffective.unique heffective'
        exact absurd hty (hty' st)
      | variant hnew' => simp [hnew] at hnew'
  family := h.family.mono fun q hq => by
    obtain ⟨g, -, hg⟩ := hq
    exact ((List.prefix_append path _).trans (List.prefix_append _ _)).trans hg
  analysed := by
    have hsucc := (eventually_add_iff 1).mpr heffective.eventually
    rw [← eventually_add_iff 2]
    filter_upwards [h.analysed, hsucc] with n hn heff
    exact analysed_newtype hnew heff hty hn

theorem EnumeratedBy.ofFields {v : Variant ι} {path : FieldPath} {cs : List (Choice ι)}
    (hmem : ∀ c, Chosen shapes b (.variant v) path c ↔
      Chosen shapes b (.fields v.data.fields) path c)
    (hstep : ∀ᶠ n in atTop, Analysed shapes b n path cs (.fields v.data.fields) →
      Analysed shapes b (n + 1) path cs (.variant v))
    (h : EnumeratedBy shapes b path (.fields v.data.fields) cs) :
    EnumeratedBy shapes b path (.variant v) cs where
  mem_iff c := by rw [h.mem_iff, hmem]
  family := h.family.mono fun q hq => by
    obtain ⟨g, -, hg⟩ := hq
    exact (List.prefix_append path _).trans hg
  analysed := by
    rw [← eventually_add_iff 1]
    filter_upwards [h.analysed, hstep] with n hn hstep
    exact hstep hn

theorem EnumeratedBy.payload {v : Variant ι} {f : Field ι} {t : ι} {path : FieldPath}
    {cs : List (Choice ι)} (hnew : newtypeField v = some f)
    (heffective : Effective shapes f.shape t) (hty : ∀ st, (shapes t).ty ≠ .user (.struct st))
    (h : EnumeratedBy shapes b path (.fields v.data.fields) cs) :
    EnumeratedBy shapes b path (.variant v) cs := by
  refine .ofFields (fun c => ?_) ?_ h
  · constructor
    · intro hc
      cases hc with
      | newtype hnew' heffective' hty' =>
        obtain rfl := Option.some.inj (hnew.symm.trans hnew')
        obtain rfl := heffective.unique heffective'
        exact absurd hty' (hty _)
      | payload _ _ _ hc => exact hc
      | variant hnew' => simp [hnew] at hnew'
    · exact .payload hnew heffective hty
  · exact heffective.eventually.mono fun n heff hn => analysed_payload hnew heff hty hn

theorem EnumeratedBy.variant {v : Variant ι} {path : FieldPath} {cs : List (Choice ι)}
    (hnew : newtypeField v = none) (h : EnumeratedBy shapes b path (.fields v.data.fields) cs) :
    EnumeratedBy shapes b path (.variant v) cs := by
  refine .ofFields (fun c => ?_) (.of_forall fun n hn => analysed_variant hnew hn) h
  constructor
  · intro hc
    cases hc with
    | newtype hnew' => simp [hnew] at hnew'
    | payload hnew' => simp [hnew] at hnew'
    | variant _ hc => exact hc
  · exact .variant hnew

/-- Everything that is built from structs and flattened enums is analysed to a list of its
choices. -/
theorem Built.enumeratedBy {part : Part ι} (h : Built shapes b part) (path : FieldPath) :
    ∃ cs, EnumeratedBy shapes b path part cs := by
  induction h generalizing path with
  | nil => exact ⟨_, .nil path⟩
  | plain hf hname hfinite _ ih =>
    obtain ⟨cs, hcs⟩ := ih path
    exact ⟨_, .plain hf hname hfinite hcs⟩
  | flat hf hname _ _ ih₁ ih =>
    obtain ⟨cs₁, hcs₁⟩ := ih₁ path
    obtain ⟨cs, hcs⟩ := ih path
    exact ⟨_, .flat hf hname hcs₁ hcs⟩
  | @struct f ws t st hunwraps hty _ ih =>
    obtain ⟨cs, hcs⟩ := ih (flattenPath path f ws)
    exact ⟨_, .struct hunwraps hty hcs⟩
  | @enum f ws t en hunwraps hty hrepr hne hnames _ ih =>
    have hall (v : Variant ι) : ∃ cs, v ∈ en.variants →
        EnumeratedBy shapes b ((flattenPath path f ws).pushVariant f.name v.name) (.variant v) cs := by
      by_cases hv : v ∈ en.variants
      · obtain ⟨cs, hcs⟩ := ih v hv ((flattenPath path f ws).pushVariant f.name v.name)
        exact ⟨cs, fun _ => hcs⟩
      · exact ⟨[], fun hv' => absurd hv' hv⟩
    choose css hcss using hall
    exact ⟨_, .enum hunwraps hty hrepr hne hnames hcss⟩
  | newtype hnew heffective hty _ ih =>
    obtain ⟨cs, hcs⟩ := ih (path.pushField "0")
    exact ⟨cs, .newtype hnew heffective hty hcs⟩
  | payload hnew heffective hty _ ih =>
    obtain ⟨cs, hcs⟩ := ih path
    exact ⟨cs, .payload hnew heffective hty hcs⟩
  | variant hnew _ ih =>
    obtain ⟨cs, hcs⟩ := ih path
    exact ⟨cs, .variant hnew hcs⟩

/-- The resolution records the choice: its selections, the fields it puts at the top level
with the paths they lead to, and the names of the fields that must be there. -/
structure RecordsChoice (r : Resolution ι) (c : Choice ι) : Prop where
  selections : r.variantSelections = c.selections
  fields : ∀ key path, (∃ info, r.fields[key]? = some info ∧ info.path = path) ↔
    ∃ e ∈ c.entries, e.info.key = key ∧ e.info.path = path
  required : ∀ name, name ∈ r.requiredFieldNames ↔
    ∃ e ∈ c.entries, e.Needed ∧ e.info.serializedName = name

variable (shapes b) in
/-- Exactly one resolution for every choice, and every resolution for one. -/
def OnePerChoice (st : StructType ι) (rs : List (Resolution ι)) : Prop :=
  (rs.map Resolution.variantSelections).Nodup ∧
    ∃ cs : List (Choice ι), cs.Nodup ∧ (∀ c, c ∈ cs ↔ Chosen shapes b (.fields st.fields) [] c) ∧
      List.Forall₂ RecordsChoice rs cs

variable (shapes b) in
/-- What an analysis of a struct may return. -/
def Complete (st : StructType ι) : Analysis (List (Resolution ι)) → Prop
  | .ok rs => OnePerChoice shapes b st rs
  | .error (.duplicateField _) => True
  | .error .unfinished => False

/-- What resolutions take to be required is needed, at least under some field's name. -/
def Choice.Faithful (c : Choice ι) : Prop :=
  ∀ e ∈ c.entries, e.stored.required →
    ∃ e' ∈ c.entries, e'.Needed ∧ e'.info.serializedName = e.info.serializedName

theorem Chosen.wrapsOption_of_declared {part : Part ι} {path : FieldPath} {c : Choice ι}
    (h : Chosen shapes b part path c) {e : Entry ι} (he : e ∈ c.entries)
    (hdeclared : e.declaredOptional = true) : e.wrapsOption = true := by
  have hbelow {f : Field ι} {ws : List ι} {c : Choice ι}
      (ih : ∀ e ∈ c.entries, e.declaredOptional = true → e.wrapsOption = true) :
      ∀ e ∈ (c.belowField shapes f ws).entries, e.declaredOptional = true →
        e.wrapsOption = true := by
    intro e he hdeclared
    obtain ⟨e', he', rfl⟩ := List.mem_map.mp he
    simp only [wrapsOption, Bool.or_eq_true] at hdeclared ⊢
    rcases hdeclared with hopt | hdeclared
    · exact .inl (.inl hopt)
    · exact .inr (ih e' he' hdeclared)
  induction h generalizing e with
  | nil => exact absurd he List.not_mem_nil
  | plain _ _ ih =>
    rcases List.mem_append.mp he with he | he
    · rw [List.mem_singleton.mp he] at hdeclared
      simp at hdeclared
    · exact ih he hdeclared
  | flat _ _ _ ih₁ ih =>
    rcases List.mem_append.mp he with he | he
    · exact ih₁ he hdeclared
    · exact ih he hdeclared
  | struct _ _ _ ih => exact hbelow (fun e he h => ih he h) e he hdeclared
  | enum _ _ _ _ ih => exact hbelow (fun e he h => ih he h) e he hdeclared
  | newtype _ _ _ _ ih => exact ih he hdeclared
  | payload _ _ _ _ ih => exact ih he hdeclared
  | variant _ _ ih => exact ih he hdeclared

theorem Computes.not_clashes {r : Resolution ι} {c : Choice ι} (h : Computes r c) :
    ¬ c.Clashes := by
  rintro ⟨e, he, e', he', hkey, hpath⟩
  have heq := h.records.eq_of_key_eq (List.mem_map_of_mem he) (List.mem_map_of_mem he') hkey
  have hpaths : e.stored.path = e'.stored.path := by rw [heq]
  exact hpath hpaths

theorem Computes.recordsChoice_iff {r : Resolution ι} {c : Choice ι} (h : Computes r c)
    (hdeclared : ∀ e ∈ c.entries, e.declaredOptional = true → e.wrapsOption = true) :
    RecordsChoice r c ↔ c.Faithful := by
  have hrequired (name : String) : name ∈ r.requiredFieldNames ↔
      ∃ e ∈ c.entries, e.stored.required ∧ e.info.serializedName = name := by
    rw [h.records.required]
    simp [Entry.stored]
  have hneeded : ∀ e ∈ c.entries, e.Needed → e.stored.required := by
    rintro e he ⟨hreq, hwraps⟩
    cases hd : e.declaredOptional with
    | false => simpa [Entry.stored, hd] using hreq
    | true => exact absurd (hdeclared e he hd) (by simp [hwraps])
  constructor
  · intro hr e he hreq
    exact (hr.required _).mp ((hrequired _).mpr ⟨e, he, hreq, rfl⟩)
  · intro hf
    refine ⟨h.selections, fun key path => ?_, fun name => ?_⟩
    · simp only [h.records.fields, List.mem_map]
      constructor
      · rintro ⟨_, ⟨⟨e, he, rfl⟩, hkey⟩, hpath⟩
        exact ⟨e, he, hkey, hpath⟩
      · rintro ⟨e, he, hkey, hpath⟩
        exact ⟨_, ⟨⟨e, he, rfl⟩, hkey⟩, hpath⟩
    · rw [hrequired]
      constructor
      · rintro ⟨e, he, hreq, rfl⟩
        exact hf e he hreq
      · rintro ⟨e, he, hn, hname⟩
        exact ⟨e, he, hneeded e he hn, hname⟩

/-- The analysis of a struct returns one resolution per choice, or reports a duplicate field
that some choice has. -/
theorem analyze_enumerated {st : StructType ι} {cs : List (Choice ι)}
    (hty : (shapes b.shape).ty = .user (.struct st))
    (h : EnumeratedBy shapes b [] (.fields st.fields) cs) :
    ∀ᶠ n in atTop, Enumerated cs (b.analyze shapes n) := by
  rw [← eventually_add_iff 1]
  filter_upwards [h.analysed] with n hn
  rw [SchemaBuilder.analyze, SchemaBuilder.analyzeShape, hty]
  dsimp only
  rw [SchemaBuilder.analyzeStruct]
  exact hn.fromNew []

/-- The analysis is complete exactly when it has a duplicate field to report, or only fields
that must be there are taken to be required. -/
theorem analyze_complete_iff {st : StructType ι} (hty : (shapes b.shape).ty = .user (.struct st))
    (hbuilt : Built shapes b (.fields st.fields)) :
    (∃ n₀, ∀ n ≥ n₀, Complete shapes b st (b.analyze shapes n)) ↔
      (∃ c, Chosen shapes b (.fields st.fields) [] c ∧ c.Clashes) ∨
        ∀ c, Chosen shapes b (.fields st.fields) [] c → c.Faithful := by
  obtain ⟨cs, h⟩ := hbuilt.enumeratedBy []
  rw [← eventually_atTop]
  have hdeclared (c) (hc : c ∈ cs) (e) (he : e ∈ c.entries) (hd : e.declaredOptional = true) :
      e.wrapsOption = true := ((h.mem_iff c).mp hc).wrapsOption_of_declared he hd
  constructor
  · intro hcomplete
    obtain ⟨n, hn, hcomplete⟩ := ((analyze_enumerated hty h).and hcomplete).exists
    match hres : b.analyze shapes n, hn, hcomplete with
    | .error (.duplicateField _), ⟨c, hc, hclash⟩, _ => exact .inl ⟨c, (h.mem_iff c).mp hc, hclash⟩
    | .ok rs, hcomputes, ⟨_, ds, _, hds, hrecords⟩ =>
      refine .inr fun c hc => ?_
      have hc := (h.mem_iff c).mpr hc
      obtain ⟨r, hr, hrc⟩ := exists_of_forall₂_right hcomputes hc
      obtain ⟨d, hd, hrd⟩ := exists_of_forall₂_right hrecords.flip hr
      have hd' := (h.mem_iff d).mpr ((hds d).mp hd)
      obtain rfl : c = d :=
        h.family.eq_of_selections hc hd' (hrc.selections.symm.trans hrd.selections)
      exact (hrc.recordsChoice_iff (hdeclared c hc)).mp hrd
  · intro hcond
    refine (analyze_enumerated hty h).mono fun n hn => ?_
    match hres : b.analyze shapes n, hn with
    | .error (.duplicateField _), _ => trivial
    | .ok rs, hcomputes =>
      have hfaithful (c) (hc : c ∈ cs) : c.Faithful := by
        rcases hcond with ⟨d, hd, hclash⟩ | hcond
        · obtain ⟨r, _, hr⟩ := exists_of_forall₂_right hcomputes ((h.mem_iff d).mpr hd)
          exact absurd hclash hr.not_clashes
        · exact hcond c ((h.mem_iff c).mp hc)
      have hselections : rs.map Resolution.variantSelections = cs.map Choice.selections := by
        rw [← List.forall₂_eq_eq_eq, List.forall₂_map_left_iff, List.forall₂_map_right_iff]
        exact hcomputes.imp fun r c hr => hr.selections
      refine ⟨?_, cs, h.family.nodup, h.mem_iff, ?_⟩
      · rw [hselections]
        exact h.family.nodup.map_on fun c hc d hd => h.family.eq_of_selections hc hd
      · exact forall₂_imp_of_mem hcomputes fun r c hc hr =>
          (hr.recordsChoice_iff (hdeclared c hc)).mpr (hfaithful c hc)

inductive WrapType
  | outer
  | wrapper
  | option
  | settings
  | u32
  deriving DecidableEq

/-- The flattened field of `Outer`. -/
def wrapField : Field WrapType := { name := "w", shape := .wrapper, flatten := true }

def settingsField : Field WrapType := { name := "x", shape := .u32 }

/-- `struct Outer { #[facet(flatten)] w: Wrapper }` where `Wrapper(Option<Settings>)` is
transparent and `struct Settings { x: u32 }`. -/
def wrapShapes : Shapes WrapType
  | .outer => { ty := .user (.struct ⟨.struct, [wrapField]⟩), «def» := .undefined }
  | .wrapper =>
    { ty := .user (.struct ⟨.tupleStruct, [{ name := "0", shape := .option }]⟩)
      «def» := .undefined
      inner := some .option }
  | .option =>
    { ty := .user (.enum ⟨[{ name := "None", data := ⟨.unit, []⟩ },
        { name := "Some", data := ⟨.tuple, [{ name := "0", shape := .settings }]⟩ }],
        .rust⟩)
      «def» := .option .settings
      inner := some .settings }
  | .settings => { ty := .user (.struct ⟨.struct, [settingsField]⟩), «def» := .undefined }
  | .u32 => { ty := .primitive .numeric, «def» := .scalar }

def wrapBuilder : SchemaBuilder WrapType := { shape := .outer, enumRepr := .flattened }

theorem wrapField_unwraps :
    Unwraps wrapShapes (flattenStart wrapShapes wrapField) [.wrapper, .option] .settings :=
  .layer rfl (.layer rfl (.done rfl))

theorem wrapShapes_built : Built wrapShapes wrapBuilder (.fields [wrapField]) := by
  have hfinite : Finite wrapShapes .u32 :=
    .intro _ fun t ⟨f, hf, _⟩ => absurd hf List.not_mem_nil
  have hsettings : Built wrapShapes wrapBuilder (.fields [settingsField]) :=
    .plain rfl List.not_mem_nil hfinite .nil
  exact .flat rfl List.not_mem_nil (.struct wrapField_unwraps rfl hsettings) .nil

/-- Whatever is chosen, the fields of `Settings` are below an `Option`. -/
theorem wrapShapes_not_needed {c : Choice WrapType}
    (h : Chosen wrapShapes wrapBuilder (.fields [wrapField]) [] c) :
    ∀ e ∈ c.entries, ¬ e.Needed := by
  cases h with
  | plain hf => simp [wrapField, Field.isFlattened] at hf
  | flat _ hw hrest =>
    cases hrest
    rw [Choice.append_empty]
    cases hw with
    | struct hunwraps _ _ =>
      obtain ⟨rfl, rfl⟩ := hunwraps.unique wrapField_unwraps
      intro e he hneeded
      obtain ⟨e', -, rfl⟩ := List.mem_map.mp he
      have hwraps : wrapsOption wrapShapes wrapField [.wrapper, .option] = true := rfl
      exact absurd hneeded.2 (by simp [hwraps])
    | enum hunwraps hty _ _ =>
      obtain ⟨rfl, rfl⟩ := hunwraps.unique wrapField_unwraps
      simp [wrapShapes] at hty

/-- The analysis takes `x` to be required, although all of `w` can be left out. -/
theorem wrapShapes_not_complete : Built wrapShapes wrapBuilder (.fields [wrapField]) ∧
    ∃ rs, wrapBuilder.analyze wrapShapes 10 = .ok rs ∧
      ¬ OnePerChoice wrapShapes wrapBuilder ⟨.struct, [wrapField]⟩ rs := by
  have heval : (wrapBuilder.analyze wrapShapes 10).toOption.any fun rs =>
      rs.any fun r => decide ("x" ∈ r.requiredFieldNames) := by decide
  refine ⟨wrapShapes_built, ?_⟩
  cases hres : wrapBuilder.analyze wrapShapes 10 with
  | error e => simp [hres, Except.toOption] at heval
  | ok rs =>
    refine ⟨rs, rfl, ?_⟩
    rintro ⟨-, cs, -, hcs, hrecords⟩
    simp only [hres, Except.toOption, Option.any_some, List.any_eq_true, decide_eq_true_eq] at heval
    obtain ⟨r, hr, hx⟩ := heval
    obtain ⟨c, hc, hrc⟩ := exists_of_forall₂_right hrecords.flip hr
    obtain ⟨e, he, hneeded, -⟩ := (hrc.required "x").mp hx
    exact wrapShapes_not_needed ((hcs c).mp hc) e he hneeded

theorem analyze_complete_iff_wrap :
    (∃ n₀, ∀ n ≥ n₀, Complete wrapShapes wrapBuilder ⟨.struct, [wrapField]⟩
      (wrapBuilder.analyze wrapShapes n)) ↔
      (∃ c, Chosen wrapShapes wrapBuilder (.fields [wrapField]) [] c ∧ c.Clashes) ∨
        ∀ c, Chosen wrapShapes wrapBuilder (.fields [wrapField]) [] c → c.Faithful :=
  analyze_complete_iff rfl wrapShapes_built

end Facet.Flatten
