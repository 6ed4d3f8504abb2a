import Facet.Flatten.RequiredNames
import Facet.Flatten.Reachable

/-!
# Runs of the solver on DOM schemas

Attributes, elements and text are reported in their category, but `finish` compares names
only. What it answers is compared with what the categories say about the required fields.
-/

namespace Facet.Flatten

open Std

variable {ι : Type} [DecidableEq ι] (shapes : Shapes ι)

/-- What is reported to a solver for a DOM format. -/
inductive Report
  | attribute (name : String)
  | element (name : String)
  | text
  deriving DecidableEq, Repr

def Report.key : Report → FieldKey
  | .attribute name => .ofAttribute name
  | .element name => .ofElement name
  | .text => .ofText

namespace Solver

def see (s : Solver ι) : Report → KeyResult ι × Solver ι
  | .attribute name => s.seeAttribute shapes name
  | .element name => s.seeElement shapes name
  | .text => s.seeText shapes

def seeAll (s : Solver ι) (reports : List Report) : Solver ι :=
  reports.foldl (fun s report => (s.see shapes report).2) s

theorem see_eq (s : Solver ι) (report : Report) :
    s.see shapes report = s.seeKeyInternal shapes report.key := by
  cases report <;> rfl

theorem mem_seenKeys_seeAll (s : Solver ι) (reports : List Report) (k : FieldKey) :
    k ∈ (s.seeAll shapes reports).seenKeys ↔
      k ∈ s.seenKeys ∨ ∃ report ∈ reports, report.key = k := by
  induction reports generalizing s with
  | nil => simp [seeAll]
  | cons report reports ih =>
    have hstep : (s.seeAll shapes (report :: reports))
        = (s.see shapes report).2.seeAll shapes reports := rfl
    rw [hstep, ih, see_eq, seeKeyInternal_seenKeys, TreeSet.mem_insert, Std.compare_eq_iff_eq]
    simp only [List.mem_cons, exists_eq_or_imp]
    tauto

theorem Reachable.seeAll {schema : Schema ι} {s : Solver ι} (h : Reachable shapes schema s)
    (reports : List Report) : Reachable shapes schema (s.seeAll shapes reports) := by
  induction reports generalizing s with
  | nil => exact h
  | cons report reports ih =>
    apply ih
    dsimp only
    rw [see_eq]
    exact h.seeKey report.key

end Solver

/-- Some report has the field's name, in whatever category. -/
def FieldInfo.NamedIn (f : FieldInfo ι) (reports : List Report) : Prop :=
  ∃ report ∈ reports, report.key.name = f.serializedName

/-- A report names the field in its own category; text, tag and elements fields are also
reported without a name. -/
def FieldInfo.ReportedIn (f : FieldInfo ι) (reports : List Report) : Prop :=
  ∃ report ∈ reports, report.key = .dom f.category f.serializedName ∨
    f.category.Unnamed ∧ report.key = .dom f.category ""

def Resolution.requiredFields (r : Resolution ι) : List (FieldInfo ι) :=
  r.fields.values.filter FieldInfo.required

section Finish

variable {shapes}

omit [DecidableEq ι] in
theorem Resolution.RequiredMatch.forall_iff {config : Resolution ι} (h : config.RequiredMatch)
    (P : String → Prop) :
    (∀ name ∈ config.requiredFieldNames, P name) ↔
      ∀ f ∈ config.requiredFields, P f.serializedName := by
  constructor
  · intro hall f hf
    obtain ⟨hmem, hrequired⟩ := List.mem_filter.mp hf
    exact hall _ ((h _).mpr ⟨f, hmem, hrequired, rfl⟩)
  · intro hall name hname
    obtain ⟨f, hmem, hrequired, rfl⟩ := (h name).mp hname
    exact hall f (List.mem_filter.mpr ⟨hmem, hrequired⟩)

/-- With one candidate left, `finish` returns it when all its required names were reported. -/
theorem finish_iff_named {schema : Schema ι}
    (hs : schema = Schema.ofResolutions schema.shape schema.format schema.resolutions)
    {reports : List Report} {r : ℕ} {config : Resolution ι}
    (hconfig : schema.resolutions[r]? = some config) (hmatch : config.RequiredMatch)
    (honly : ∀ i, i ∈ ((Solver.new schema).seeAll shapes reports).candidates ↔ i = r) :
    ((Solver.new schema).seeAll shapes reports).finish = .ok r ↔
      ∀ f ∈ config.requiredFields, f.NamedIn reports := by
  have hwell := (Solver.Reachable.new.seeAll shapes reports).wellFormed shapes hs
  have hviable : r ∈ ((Solver.new schema).seeAll shapes reports).viable ↔
      ∀ f ∈ config.requiredFields, f.NamedIn reports := by
    rw [Solver.viable, List.mem_filter, ResolutionSet.mem_iter, honly, hwell.schema_eq, hconfig]
    simp only [true_and, Solver.requiredSeen, List.all_eq_true, TreeSet.mem_toList,
      List.any_eq_true, beq_iff_eq, hmatch.forall_iff, FieldInfo.NamedIn,
      Solver.mem_seenKeys_seeAll]
    simp [Solver.new]
  rw [Solver.finish_ok_iff hwell.valid, Solver.eq_singleton_iff_of_nodup (Solver.viable_nodup _),
    ← hviable]
  constructor
  · intro h
    exact (h r).mpr rfl
  · intro hr i
    constructor
    · intro hi
      rw [← honly]
      exact (ResolutionSet.mem_iter _ i).mp (List.mem_filter.mp hi).1
    · rintro rfl
      exact hr

/-- With one candidate left, `finish` goes by the categories of the required fields unless
all required names are reported and one of them only in other categories, or all required
fields are reported and one of them only without its name. -/
theorem finish_byCategory_iff (hwell : WellNamed shapes) {n : ℕ} {shape : ι} {schema : Schema ι}
    (hschema : Schema.buildDom shapes n shape = .ok schema) (reports : List Report) {r : ℕ}
    {config : Resolution ι} (hconfig : schema.resolutions[r]? = some config)
    (honly : ∀ i, i ∈ ((Solver.new schema).seeAll shapes reports).candidates ↔ i = r) :
    (((Solver.new schema).seeAll shapes reports).finish = .ok r ↔
        ∀ f ∈ config.requiredFields, f.ReportedIn reports) ↔
      ((∃ f ∈ config.requiredFields, f.NamedIn reports ∧ ¬ f.ReportedIn reports) →
        ∃ g ∈ config.requiredFields, ¬ g.NamedIn reports) ∧
      ((∃ f ∈ config.requiredFields, f.ReportedIn reports ∧ ¬ f.NamedIn reports) →
        ∃ g ∈ config.requiredFields, ¬ g.ReportedIn reports) := by
  have hs := SchemaBuilder.intoSchema_eq shapes n hschema
  have hmatch : config.RequiredMatch :=
    analyze_requiredMatch hwell (SchemaBuilder.analyze_of_intoSchema shapes n hschema) config
      (List.mem_of_getElem? hconfig)
  rw [finish_iff_named hs hconfig hmatch honly]
  constructor
  · intro h
    constructor
    · rintro ⟨f, hf, -, hunreported⟩
      by_contra hnone
      push Not at hnone
      exact hunreported (h.mp hnone f hf)
    · rintro ⟨f, hf, -, hunnamed⟩
      by_contra hnone
      push Not at hnone
      exact hunnamed (h.mpr hnone f hf)
  · rintro ⟨hmisplaced, hanonymous⟩
    constructor
    · intro hnamed f hf
      by_contra hunreported
      obtain ⟨g, hg, hunnamed⟩ := hmisplaced ⟨f, hf, hnamed f hf, hunreported⟩
      exact hunnamed (hnamed g hg)
    · intro hreported f hf
      by_contra hunnamed
      obtain ⟨g, hg, hunreported⟩ := hanonymous ⟨f, hf, hreported f hf, hunnamed⟩
      exact hunreported (hreported g hg)

end Finish

inductive NoteType
  | note
  | string
  deriving DecidableEq

/-- `struct Note { #[facet(xml::attribute)] id: String }`. -/
def noteShapes : Shapes NoteType
  | .note =>
    { ty := .user (.struct ⟨.struct,
        [{ name := "id", shape := .string, attributes := [⟨some "xml", "attribute"⟩] }]⟩)
      «def» := .undefined }
  | .string => { ty := .user .opaqueTy, «def» := .scalar }

theorem noteShapes_wellNamed : WellNamed noteShapes := by
  constructor
  · intro s st hty
    cases s with
    | note =>
      cases hty
      exact List.nodup_singleton _
    | string => cases hty
  · intro s en hty
    cases s <;> cases hty

def noteSolver (schema : Schema NoteType) : Solver NoteType :=
  (Solver.new schema).seeAll noteShapes [.element "id"]

/-- The schema of the note, its only candidate after the element `id`, and the answer. -/
theorem noteShapes_run : ∃ schema config, Schema.buildDom noteShapes 10 .note = .ok schema ∧
    schema.resolutions[0]? = some config ∧ (∀ i, i ∈ (noteSolver schema).candidates ↔ i = 0) ∧
    (noteSolver schema).finish = .ok 0 ∧
    ∃ f ∈ config.requiredFields, f.category = .attribute := by
  have heval : (Schema.buildDom noteShapes 10 .note).toOption.any fun schema =>
      schema.resolutions[0]?.any (fun config =>
        config.requiredFields.any fun f => decide (f.category = .attribute)) &&
      decide ((noteSolver schema).candidates.iter = [0]) &&
      decide ((noteSolver schema).finish.toOption = some 0) := by decide
  cases hschema : Schema.buildDom noteShapes 10 .note with
  | error e => simp [hschema, Except.toOption] at heval
  | ok schema =>
    simp only [hschema, Except.toOption, Option.any_some, Bool.and_eq_true, Option.any_eq_true,
      decide_eq_true_eq, List.any_eq_true] at heval
    obtain ⟨⟨⟨config, hconfig, f, hf, hcat⟩, hiter⟩, hfinish⟩ := heval
    refine ⟨schema, config, rfl, hconfig, ?_, ?_, f, hf, hcat⟩
    · intro i
      rw [← ResolutionSet.mem_iter, hiter, List.mem_singleton]
    · cases hres : (noteSolver schema).finish with
      | error e => simp [hres] at hfinish
      | ok r =>
        obtain rfl : r = 0 := by simpa [hres] using hfinish
        rfl

/-- The element `id` passes for the attribute of that name. -/
theorem noteShapes_not_byCategory : ∃ schema config,
    Schema.buildDom noteShapes 10 .note = .ok schema ∧ schema.resolutions[0]? = some config ∧
    (∀ i, i ∈ (noteSolver schema).candidates ↔ i = 0) ∧
    ¬ ((noteSolver schema).finish = .ok 0 ↔
      ∀ f ∈ config.requiredFields, f.ReportedIn [.element "id"]) := by
  obtain ⟨schema, config, hschema, hconfig, honly, hfinish, f, hf, hcat⟩ := noteShapes_run
  refine ⟨schema, config, hschema, hconfig, honly, ?_⟩
  intro h
  obtain ⟨report, hreport, hkey | ⟨hunnamed, -⟩⟩ := h.mp hfinish f hf
  · rw [List.mem_singleton.mp hreport, hcat] at hkey
    cases hkey
  · rw [hcat] at hunnamed
    revert hunnamed
    decide

theorem finish_byCategory_iff_note : ∃ (schema : Schema NoteType) (config : Resolution NoteType),
    Schema.buildDom noteShapes 10 .note = .ok schema ∧
    (((noteSolver schema).finish = .ok 0 ↔
        ∀ f ∈ config.requiredFields, f.ReportedIn [.element "id"]) ↔
      ((∃ f ∈ config.requiredFields,
          f.NamedIn [.element "id"] ∧ ¬ f.ReportedIn [.element "id"]) →
        ∃ g ∈ config.requiredFields, ¬ g.NamedIn [.element "id"]) ∧
      ((∃ f ∈ config.requiredFields,
          f.ReportedIn [.element "id"] ∧ ¬ f.NamedIn [.element "id"]) →
        ∃ g ∈ config.requiredFields, ¬ g.ReportedIn [.element "id"])) := by
  obtain ⟨schema, config, hschema, hconfig, honly, -, -⟩ := noteShapes_run
  exact ⟨schema, config, hschema,
    finish_byCategory_iff noteShapes_wellNamed hschema [.element "id"] hconfig honly⟩

end Facet.Flatten
