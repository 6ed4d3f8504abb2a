import Facet.Pretty.ShapeNested

/-!
# Colored type definitions

The writer with colors and the one with spans print the same pieces; the former paints them and
leaves a blank line between fields and variants. Without the escape codes the plain pieces are
left, unless a string of a definition has an escape character itself.
-/

namespace Facet.Pretty

open Relation ShapeSpans

variable {ι : Type}

section

variable (config : ShapeFormatConfig) (paint : Paint) (gap : String) (typeName : ι → String)

/-- The one text that the writers have for a definition, up to colors and gaps. -/
def Definition.text (shape : Shape ι) : Definition ι → String
  | .struct ty => structText config paint gap typeName shape ty
  | .enum ty => enumText config paint gap typeName shape ty

theorem join_zipIdx_succ {α : Type} (gap : String) (f : α → String) (xs : List α) (k : ℕ) :
    String.join ((xs.zipIdx (k + 1)).map fun x => (if x.2 > 0 then gap else "") ++ f x.1) =
      if xs = [] then "" else gap ++ gap.intercalate (xs.map f) := by
  induction xs generalizing k with
  | nil => rfl
  | cons x xs ih =>
    rw [List.zipIdx_cons, List.map_cons, String.join_cons, ih]
    cases xs with
    | nil => simp
    | cons y ys => simp [String.append_assoc]

theorem join_zipIdx {α : Type} (gap : String) (f : α → String) (xs : List α) :
    String.join (xs.zipIdx.map fun x => (if x.2 > 0 then gap else "") ++ f x.1) =
      gap.intercalate (xs.map f) := by
  cases xs with
  | nil => rfl
  | cons x xs =>
    rw [List.zipIdx_cons, List.map_cons, String.join_cons, join_zipIdx_succ]
    cases xs with
    | nil => simp
    | cons y ys => simp [String.append_assoc]

theorem formatFieldsColored_eq (fields : List (Field ι)) (indent : String) :
    formatFieldsColored config paint typeName fields indent =
      fieldsText config paint "\n" typeName indent fields := by
  rw [fieldsText, ← join_zipIdx]
  unfold formatFieldsColored fieldText
  simp only [String.append_assoc]

theorem formatVariantColored_eq (variant : Variant ι) :
    writeItemHead config paint variant.doc variant.attributes "    "
        ++ formatVariantColored config paint typeName variant =
      variantText config paint "\n" typeName variant := by
  unfold formatVariantColored variantText variantDataText variantContents
  cases variant.data.kind with
  | _ =>
    simp only [formatFieldsColored_eq, formatTupleColored, tupleText, opening, String.append_assoc]

theorem formatStructColored_eq (shape : Shape ι) (structType : StructType ι) :
    formatStructColored config paint typeName shape structType =
      structText config paint "\n" typeName shape structType := by
  unfold formatStructColored structText
  cases structType.kind with
  | _ =>
    simp only [formatFieldsColored_eq, formatTupleColored, tupleText, opening, String.append_assoc]

theorem formatEnumColored_eq (shape : Shape ι) (enumType : EnumType ι) :
    formatEnumColored config paint typeName shape enumType =
      enumText config paint "\n" typeName shape enumType := by
  unfold formatEnumColored enumText
  simp only [← join_zipIdx, ← formatVariantColored_eq, opening, String.append_assoc]

end

def escape : Char := Char.ofNat 27

/-- The text has no escape character. -/
def EscapeFree (text : String) : Prop := escape ∉ text.toList

instance (text : String) : Decidable (EscapeFree text) := inferInstanceAs (Decidable (_ ∉ _))

/-- A control sequence: an escape character, a bracket, parameters and a letter. -/
def IsEscapeCode (code : String) : Prop :=
  ∃ (parameters : List Char) (letter : Char),
    code.toList = escape :: '[' :: (parameters ++ [letter]) ∧
      (∀ c ∈ parameters, c.isAlpha = false) ∧ letter.isAlpha = true

/-- A style puts one code before a text and one behind it. -/
def Paint.Surrounds (paint : Paint) : Prop :=
  ∀ style, ∃ before after, IsEscapeCode before ∧ IsEscapeCode after ∧
    ∀ text, paint style text = before ++ text ++ after

@[simp]
theorem escapeFree_append (a b : String) : EscapeFree (a ++ b) ↔ EscapeFree a ∧ EscapeFree b := by
  simp [EscapeFree]

theorem escapeFree_join (xs : List String) :
    EscapeFree (String.join xs) ↔ ∀ x ∈ xs, EscapeFree x := by
  induction xs with
  | nil => simp [EscapeFree]
  | cons x xs ih => simp [ih]

theorem escapeFree_intercalate {between : String} (hbetween : EscapeFree between)
    (xs : List String) : EscapeFree (between.intercalate xs) ↔ ∀ x ∈ xs, EscapeFree x := by
  induction xs with
  | nil => simp [EscapeFree]
  | cons x xs ih =>
    cases xs with
    | nil => simp
    | cons y ys => simp [hbetween, ih]

theorem stripAnsi_cons_of_ne {c : Char} (hc : c ≠ escape) (chars : List Char) :
    stripAnsi false (c :: chars) = c :: stripAnsi false chars := by
  rw [stripAnsi.eq_def]
  simp only
  exact if_neg hc

theorem stripAnsi_of_escapeFree {chars : List Char} (h : escape ∉ chars) (rest : List Char) :
    stripAnsi false (chars ++ rest) = chars ++ stripAnsi false rest := by
  induction chars with
  | nil => rfl
  | cons c chars ih =>
    rw [List.mem_cons, not_or] at h
    rw [List.cons_append, stripAnsi_cons_of_ne (Ne.symm h.1), ih h.2, List.cons_append]

/-- Within a sequence everything up to the letter is dropped. -/
theorem stripAnsi_parameters {parameters : List Char} {letter : Char}
    (h : ∀ c ∈ parameters, c.isAlpha = false) (hletter : letter.isAlpha = true)
    (rest : List Char) :
    stripAnsi true (parameters ++ letter :: rest) = stripAnsi false rest := by
  induction parameters with
  | nil => rw [List.nil_append, stripAnsi, hletter, Bool.not_true]
  | cons c parameters ih =>
    rw [List.cons_append, stripAnsi, h c List.mem_cons_self, Bool.not_false]
    exact ih fun c' hc' => h c' (List.mem_cons_of_mem c hc')

theorem stripAnsi_code {code : String} (h : IsEscapeCode code) (rest : List Char) :
    stripAnsi false (code.toList ++ rest) = stripAnsi false rest := by
  obtain ⟨parameters, letter, hcode, hparameters, hletter⟩ := h
  have hsplit : code.toList ++ rest =
      escape :: '[' :: (parameters ++ letter :: rest) := by
    rw [hcode]
    simp
  rw [hsplit, ← stripAnsi_parameters hparameters hletter rest]
  simp [escape, stripAnsi]

theorem escape_notMem_stripAnsi (inside : Bool) (chars : List Char) :
    escape ∉ stripAnsi inside chars := by
  induction inside, chars using stripAnsi.induct with
  | case1 inside => simp [stripAnsi]
  | case2 c chars ih => simpa [stripAnsi] using ih
  | case3 => simp [stripAnsi]
  | case4 chars ih => simpa [stripAnsi] using ih
  | case5 c chars hc ih => simpa [stripAnsi, hc] using ih
  | case6 c chars hc ih =>
    rw [stripAnsi_cons_of_ne hc, List.mem_cons, not_or]
    exact ⟨Ne.symm hc, ih⟩

/-- Removing the codes from the colored text leaves the plain one, if that has no escape
character. -/
def StripsTo (colored text : String) : Prop :=
  EscapeFree text → ∀ rest,
    stripAnsi false (colored.toList ++ rest) = text.toList ++ stripAnsi false rest

theorem StripsTo.refl (text : String) : StripsTo text text := stripAnsi_of_escapeFree

theorem StripsTo.append {a b a' b' : String} (h : StripsTo a b) (h' : StripsTo a' b') :
    StripsTo (a ++ a') (b ++ b') := by
  intro hfree rest
  obtain ⟨hb, hb'⟩ := (escapeFree_append b b').mp hfree
  rw [String.toList_append, String.toList_append, List.append_assoc, h hb, h' hb',
    List.append_assoc]

theorem StripsTo.painted {paint : Paint} (h : paint.Surrounds) (style : ShapeStyle)
    (text : String) : StripsTo (paint style text) (plain style text) := by
  intro hfree rest
  obtain ⟨before, after, hbefore, hafter, hpaint⟩ := h style
  rw [plain_apply] at hfree ⊢
  rw [hpaint, String.toList_append, String.toList_append, List.append_assoc, List.append_assoc,
    stripAnsi_code hbefore, stripAnsi_of_escapeFree hfree, stripAnsi_code hafter]

theorem StripsTo.join {α : Type} {f g : α → String} {xs : List α}
    (h : ∀ x ∈ xs, StripsTo (f x) (g x)) :
    StripsTo (String.join (xs.map f)) (String.join (xs.map g)) := by
  induction xs with
  | nil => exact .refl _
  | cons x xs ih =>
    rw [List.map_cons, List.map_cons, String.join_cons, String.join_cons]
    exact (h x List.mem_cons_self).append (ih fun y hy => h y (List.mem_cons_of_mem x hy))

theorem StripsTo.intercalate {between between' : String} (hbetween : StripsTo between between')
    {xs ys : List String} (h : List.Forall₂ StripsTo xs ys) :
    StripsTo (between.intercalate xs) (between'.intercalate ys) := by
  induction h with
  | nil => exact .refl _
  | @cons x y xs ys hx hxs ih =>
    cases hxs with
    | nil => simpa using hx
    | cons _ _ =>
      rw [String.intercalate_cons_cons, String.intercalate_cons_cons]
      exact (hx.append hbetween).append ih

theorem forall₂_map {α : Type} {f g : α → String} {xs : List α}
    (h : ∀ x ∈ xs, StripsTo (f x) (g x)) : List.Forall₂ StripsTo (xs.map f) (xs.map g) := by
  rw [List.forall₂_map_left_iff, List.forall₂_map_right_iff]
  exact List.forall₂_same.mpr h

/-- Of a text that was stripped, exactly one without escape characters is left as it is. -/
theorem StripsTo.stripAnsi_eq_iff {colored text : String} (h : StripsTo colored text) :
    String.ofList (stripAnsi false colored.toList) = text ↔ EscapeFree text := by
  constructor
  · rintro rfl
    rw [EscapeFree, String.toList_ofList]
    exact escape_notMem_stripAnsi false _
  · intro hfree
    have hstrip := h hfree []
    rw [List.append_nil, stripAnsi, List.append_nil] at hstrip
    rw [hstrip, String.ofList_toList]

section

variable {shapes : Shapes ι} {config : ShapeFormatConfig} {paint : Paint}
  (hpaint : paint.Surrounds)

include hpaint

theorem stripsTo_typeName {depth : ℕ} {s : ι} {name name' : String}
    (h : writeTypeNameColored shapes paint depth s = some name)
    (h' : writeTypeNameColored shapes plain depth s = some name') : StripsTo name name' := by
  induction depth generalizing s name name' with
  | zero => cases h
  | succ depth ih =>
    have p := StripsTo.painted hpaint
    rw [writeTypeNameColored] at h h'
    cases hform : nameForm shapes (shapes s) with
    | identifier =>
      cases hdef : (shapes s).def with
      | _ =>
        simp only [hform, hdef] at h h'
        cases h
        cases h'
        exact p _ _
    | map k v =>
      simp only [hform, Option.bind_eq_bind, Option.bind_eq_some_iff] at h h'
      obtain ⟨key, hkey, value, hvalue, h⟩ := h
      obtain ⟨key', hkey', value', hvalue', h'⟩ := h'
      cases h
      cases h'
      exact (((((p _ _).append (p _ _)).append (ih hkey hkey')).append (p _ _)).append
        (.refl _)).append (ih hvalue hvalue') |>.append (p _ _)
    | list t | option t =>
      simp only [hform, Option.bind_eq_bind, Option.bind_eq_some_iff] at h h'
      obtain ⟨inner, hinner, h⟩ := h
      obtain ⟨inner', hinner', h'⟩ := h'
      cases h
      cases h'
      exact (((p _ _).append (p _ _)).append (ih hinner hinner')).append (p _ _)
    | referenceToArray t n | array t n =>
      simp only [hform, Option.bind_eq_bind, Option.bind_eq_some_iff] at h h'
      obtain ⟨inner, hinner, h⟩ := h
      obtain ⟨inner', hinner', h'⟩ := h'
      cases h
      cases h'
      exact ((((p _ _).append (ih hinner hinner')).append (p _ _)).append (p _ _)).append (p _ _)

theorem stripsTo_nameWithin (depth : ℕ) (s : ι) :
    StripsTo (nameWithin shapes paint depth s) (nameWithin shapes plain depth s) := by
  have hsame : (writeTypeNameColored shapes paint depth s).isSome ↔
      (writeTypeNameColored shapes plain depth s).isSome :=
    isSome_writeTypeNameColored_paint paint plain depth s
  unfold nameWithin
  cases h : writeTypeNameColored shapes paint depth s with
  | none =>
    rw [h] at hsame
    have hnone : writeTypeNameColored shapes plain depth s = none := by simpa using hsame
    rw [hnone]
    exact .refl _
  | some name =>
    rw [h] at hsame
    obtain ⟨name', h'⟩ := Option.isSome_iff_exists.mp (hsame.mp rfl)
    rw [h']
    exact stripsTo_typeName hpaint h h'

theorem stripsTo_docComments (doc : List String) (indent : String) :
    StripsTo (writeDocCommentsColored paint doc indent)
      (writeDocCommentsColored plain doc indent) := by
  apply StripsTo.join
  intro line _
  exact ((StripsTo.refl _).append (.painted hpaint _ _)).append (.refl _)

theorem stripsTo_thirdPartyAttrs (attributes : List FieldAttribute) (indent : String) :
    StripsTo (writeThirdPartyAttrsColored paint attributes indent)
      (writeThirdPartyAttrsColored plain attributes indent) := by
  apply StripsTo.join
  intro item _
  have p := StripsTo.painted hpaint
  have hkeys : StripsTo
      ((paint .punctuation ", ").intercalate (item.2.map fun key =>
        paint .attributeContent item.1 ++ paint .punctuation "::" ++ paint .attributeContent key))
      ((plain .punctuation ", ").intercalate (item.2.map fun key =>
        plain .attributeContent item.1 ++ plain .punctuation "::"
          ++ plain .attributeContent key)) := by
    apply StripsTo.intercalate (p _ _) (forall₂_map _)
    intro key _
    exact ((p _ _).append (p _ _)).append (p _ _)
  exact (((((((StripsTo.refl indent).append (p _ _)).append (p _ _)).append (p _ _)).append
    hkeys).append (p _ _)).append (p _ _)).append (.refl _)

theorem stripsTo_itemHead (doc : List String) (attributes : List FieldAttribute)
    (indent : String) :
    StripsTo (writeItemHead config paint doc attributes indent)
      (writeItemHead config plain doc attributes indent) := by
  unfold writeItemHead
  apply StripsTo.append
  · split_ifs
    · exact stripsTo_docComments hpaint doc indent
    · exact .refl _
  · split_ifs
    · exact stripsTo_thirdPartyAttrs hpaint attributes indent
    · exact .refl _

theorem forall₂_facetAttrs (shape : Shape ι) :
    List.Forall₂ StripsTo (facetAttrs paint shape) (facetAttrs plain shape) := by
  have p := StripsTo.painted hpaint
  unfold facetAttrs
  apply List.rel_append
  · apply List.rel_append
    · cases shape.tag with
      | none => exact .nil
      | some tag =>
        cases shape.content with
        | none => exact .cons (((p _ _).append (p _ _)).append (p _ _)) .nil
        | some content =>
          exact .cons ((((((((p _ _).append (p _ _)).append (p _ _)).append (p _ _)).append
            (p _ _)).append (p _ _)).append (p _ _)).append (p _ _) |>.append (p _ _)) .nil
    · split_ifs
      · exact .cons (p _ _) .nil
      · exact .nil
  · split_ifs
    · exact .cons (p _ _) .nil
    · exact .nil

theorem stripsTo_facetAttrs (shape : Shape ι) :
    StripsTo (writeFacetAttrsColored paint shape) (writeFacetAttrsColored plain shape) := by
  have p := StripsTo.painted hpaint
  have hattrs := forall₂_facetAttrs hpaint shape
  have hempty : (facetAttrs paint shape).isEmpty = (facetAttrs plain shape).isEmpty := by
    rw [Bool.eq_iff_iff, List.isEmpty_iff_length_eq_zero, List.isEmpty_iff_length_eq_zero,
      hattrs.length_eq]
  unfold writeFacetAttrsColored
  simp only [hempty]
  split_ifs
  · exact .refl _
  · exact (((((p _ _).append (p _ _)).append (p _ _)).append
      (.intercalate (p _ _) hattrs)).append (p _ _)).append (.refl _)

theorem stripsTo_typeHead (shape : Shape ι) (repr : Option String) :
    StripsTo (writeTypeHead config paint shape repr) (writeTypeHead config plain shape repr) := by
  have p := StripsTo.painted hpaint
  have hdoc : StripsTo
      (if config.showDocComments then writeDocCommentsColored paint shape.doc "" else "")
      (if config.showDocComments then writeDocCommentsColored plain shape.doc "" else "") := by
    split_ifs
    · exact stripsTo_docComments hpaint shape.doc ""
    · exact .refl _
  have hattrs : StripsTo
      (if config.showThirdPartyAttrs then writeThirdPartyAttrsColored paint shape.attributes ""
        else "")
      (if config.showThirdPartyAttrs then writeThirdPartyAttrsColored plain shape.attributes ""
        else "") := by
    split_ifs
    · exact stripsTo_thirdPartyAttrs hpaint shape.attributes ""
    · exact .refl _
  unfold writeTypeHead
  refine ((((((((hdoc.append (p _ _)).append (p _ _)).append (p _ _)).append (p _ _)).append
    (p _ _)).append (.refl _)).append ?_).append (stripsTo_facetAttrs hpaint shape)).append hattrs
  cases repr with
  | none => exact .refl _
  | some repr =>
    exact (((((p _ _).append (p _ _)).append (p _ _)).append (p _ _)).append (p _ _)).append
      (.refl _)

section

variable {gap : String} {typeName typeName' : ι → String}
  (hname : ∀ s, StripsTo (typeName s) (typeName' s))

include hname

theorem stripsTo_fields (indent : String) (fields : List (Field ι)) :
    StripsTo (fieldsText config paint gap typeName indent fields)
      (fieldsText config plain gap typeName' indent fields) := by
  have p := StripsTo.painted hpaint
  apply StripsTo.intercalate (.refl gap) (forall₂_map _)
  intro field _
  exact (((stripsTo_itemHead hpaint _ _ _).append (.refl _)).append (((p _ _).append
    ((p _ _).append (.refl _))).append (hname _))).append ((p _ _).append (.refl _))

theorem stripsTo_tuple (fields : List (Field ι)) :
    StripsTo (tupleText paint typeName fields) (tupleText plain typeName' fields) :=
  StripsTo.intercalate ((StripsTo.painted hpaint _ _).append (.refl _))
    (forall₂_map fun field _ => hname field.shape)

theorem stripsTo_struct (shape : Shape ι) (structType : StructType ι) :
    StripsTo (structText config paint gap typeName shape structType)
      (structText config plain gap typeName' shape structType) := by
  have p := StripsTo.painted hpaint
  unfold structText
  apply (((stripsTo_typeHead hpaint shape none).append ((p _ _).append (.refl _))).append
    (p _ _)).append
  cases structType.kind with
  | struct =>
    exact ((((StripsTo.refl " ").append (p _ _)).append (.refl _)).append
      (stripsTo_fields hpaint hname _ _)).append (p _ _)
  | tuple | tupleStruct =>
    exact ((p _ _).append (stripsTo_tuple hpaint hname _)).append ((p _ _).append (p _ _))
  | unit => exact p _ _

theorem stripsTo_variant (variant : Variant ι) :
    StripsTo (variantText config paint gap typeName variant)
      (variantText config plain gap typeName' variant) := by
  have p := StripsTo.painted hpaint
  have hdata : StripsTo (variantDataText config paint gap typeName variant)
      (variantDataText config plain gap typeName' variant) := by
    unfold variantDataText variantContents
    cases variant.data.kind with
    | struct =>
      exact ((p _ _).append (((StripsTo.refl " ").append (p _ _)).append (.refl _))).append
        ((stripsTo_fields hpaint hname _ _).append ((StripsTo.refl _).append (p _ _)))
    | tuple | tupleStruct =>
      exact ((p _ _).append (p _ _)).append ((stripsTo_tuple hpaint hname _).append (p _ _))
    | unit => exact p _ _
  exact (((stripsTo_itemHead hpaint _ _ _).append (.refl _)).append hdata).append
    ((p _ _).append (.refl _))

theorem stripsTo_enum (shape : Shape ι) (enumType : EnumType ι) :
    StripsTo (enumText config paint gap typeName shape enumType)
      (enumText config plain gap typeName' shape enumType) := by
  have p := StripsTo.painted hpaint
  have hvariants : StripsTo
      (gap.intercalate (enumType.variants.map (variantText config paint gap typeName)))
      (gap.intercalate (enumType.variants.map (variantText config plain gap typeName'))) :=
    StripsTo.intercalate (.refl gap)
      (forall₂_map fun variant _ => stripsTo_variant hpaint hname variant)
  exact (((((stripsTo_typeHead hpaint shape _).append ((p _ _).append (.refl _))).append
    (p _ _)).append (((StripsTo.refl " ").append (p _ _)).append (.refl _))).append
    hvariants).append (p _ _)

theorem stripsTo_definition (shape : Shape ι) (d : Definition ι) :
    StripsTo (d.text config paint gap typeName shape) (d.text config plain gap typeName' shape) := by
  cases d with
  | struct ty => exact stripsTo_struct hpaint hname shape ty
  | enum ty => exact stripsTo_enum hpaint hname shape ty

end

end

section

variable (config : ShapeFormatConfig)

/-- The strings of the comments and attributes above an item or a type. -/
def shownAbove (doc : List String) (attributes : List FieldAttribute) : List String :=
  (if config.showDocComments then doc else [])
    ++ if config.showThirdPartyAttrs then
        attributes.flatMap fun a => a.ns.elim [] fun ns => [ns, a.key]
      else []

/-- The strings of a struct's or a variant's data, apart from the names of types. -/
def shownData (data : StructType ι) : List String :=
  match data.kind with
  | .struct => data.fields.flatMap fun field =>
      field.name :: shownAbove config field.doc (allAttributes field)
  | .tuple | .tupleStruct | .unit => []

/-- The strings of a definition, apart from the names of the types of its fields. -/
def Definition.shown (shape : Shape ι) (d : Definition ι) : List String :=
  shownAbove config shape.doc shape.attributes
    ++ shape.tag.elim [] (fun tag => tag :: shape.content.toList)
    ++ shape.typeIdentifier :: match d with
      | .struct ty => shownData config ty
      | .enum ty => ty.variants.flatMap fun variant =>
          shownAbove config variant.doc variant.attributes
            ++ variant.name :: shownData config variant.data

/-- The types whose names are in the text. -/
def dataTypes (data : StructType ι) : List ι :=
  match data.kind with
  | .unit => []
  | .struct | .tuple | .tupleStruct => data.fields.map Field.shape

def Definition.types : Definition ι → List ι
  | .struct ty => dataTypes ty
  | .enum ty => ty.variants.flatMap fun variant => dataTypes variant.data

theorem mem_byNamespace {attributes : List FieldAttribute} (item : String × List String) :
    item ∈ byNamespace attributes ↔ (∃ a ∈ attributes, a.ns = some item.1) ∧
      item.2 = (attributes.filter fun a => a.ns = some item.1).map FieldAttribute.key := by
  obtain ⟨ns, keys⟩ := item
  simp only [byNamespace, List.mem_map, List.mem_mergeSort, List.mem_eraseDups,
    List.mem_filterMap, Prod.mk.injEq]
  constructor
  · rintro ⟨ns', hns, rfl, rfl⟩
    exact ⟨hns, rfl⟩
  · rintro ⟨hns, hkeys⟩
    exact ⟨ns, hns, rfl, hkeys.symm⟩

theorem escapeFree_docComments {indent : String} (hindent : EscapeFree indent)
    (doc : List String) :
    EscapeFree (writeDocCommentsColored plain doc indent) ↔ ∀ line ∈ doc, EscapeFree line := by
  simp +decide [writeDocCommentsColored, escapeFree_join, hindent]

theorem escapeFree_thirdPartyAttrs {indent : String} (hindent : EscapeFree indent)
    (attributes : List FieldAttribute) :
    EscapeFree (writeThirdPartyAttrsColored plain attributes indent) ↔
      ∀ a ∈ attributes, ∀ ns, a.ns = some ns → EscapeFree ns ∧ EscapeFree a.key := by
  have hcomma : EscapeFree ", " := by decide
  simp +decide only [writeThirdPartyAttrsColored, plain_apply, escapeFree_join,
    List.forall_mem_map, escapeFree_append, escapeFree_intercalate hcomma, hindent, true_and,
    and_true]
  constructor
  · intro h a ha ns hns
    have hitem := (mem_byNamespace (ns, (attributes.filter fun a => a.ns = some ns).map
      FieldAttribute.key)).mpr ⟨⟨a, ha, hns⟩, rfl⟩
    have hkey : a ∈ attributes.filter fun a => a.ns = some ns :=
      List.mem_filter.mpr ⟨ha, decide_eq_true hns⟩
    exact h _ hitem _ (List.mem_map_of_mem hkey)
  · intro h item hitem key hkey
    obtain ⟨-, hkeys⟩ := (mem_byNamespace item).mp hitem
    rw [hkeys] at hkey
    obtain ⟨a, ha, rfl⟩ := List.mem_map.mp hkey
    obtain ⟨ha, hns⟩ := List.mem_filter.mp ha
    exact h a ha item.1 (of_decide_eq_true hns)

theorem escapeFree_shownAbove (doc : List String) (attributes : List FieldAttribute) :
    (∀ text ∈ shownAbove config doc attributes, EscapeFree text) ↔
      (config.showDocComments = true → ∀ line ∈ doc, EscapeFree line) ∧
        (config.showThirdPartyAttrs = true →
          ∀ a ∈ attributes, ∀ ns, a.ns = some ns → EscapeFree ns ∧ EscapeFree a.key) := by
  have hattribute (a : FieldAttribute) :
      (∀ text ∈ a.ns.elim [] (fun ns => [ns, a.key]), EscapeFree text) ↔
        ∀ ns, a.ns = some ns → EscapeFree ns ∧ EscapeFree a.key := by
    cases a.ns <;> simp
  rw [shownAbove, List.forall_mem_append]
  apply and_congr
  · split_ifs with hdoc <;> simp [hdoc]
  · split_ifs with hattrs
    · simp only [hattrs, true_imp_iff, List.forall_mem_flatMap, hattribute]
    · simp [hattrs]

theorem escapeFree_itemHead {indent : String} (hindent : EscapeFree indent)
    (doc : List String) (attributes : List FieldAttribute) :
    EscapeFree (writeItemHead config plain doc attributes indent) ↔
      ∀ text ∈ shownAbove config doc attributes, EscapeFree text := by
  have hempty : EscapeFree "" := by decide
  rw [escapeFree_shownAbove, ← escapeFree_docComments hindent,
    ← escapeFree_thirdPartyAttrs hindent]
  unfold writeItemHead
  split_ifs with hdoc hattrs hattrs <;> simp [hdoc, hattrs, hempty]

theorem escapeFree_facetAttrs (shape : Shape ι) :
    (∀ text ∈ facetAttrs plain shape, EscapeFree text) ↔
      ∀ text ∈ shape.tag.elim [] (fun tag => tag :: shape.content.toList), EscapeFree text := by
  have hflags : ∀ text ∈ (if shape.untagged then ["untagged"] else []) ++
      (if shape.hasDenyUnknownFieldsAttr then ["deny_unknown_fields"] else []),
      EscapeFree text := by
    split_ifs <;> decide
  unfold facetAttrs
  simp only [plain_apply]
  rw [List.append_assoc, List.forall_mem_append, and_iff_left hflags]
  cases shape.tag with
  | none => simp
  | some tag => cases shape.content <;> simp +decide [quoted, and_comm]

theorem escapeFree_writeFacetAttrs (shape : Shape ι) :
    EscapeFree (writeFacetAttrsColored plain shape) ↔
      ∀ text ∈ shape.tag.elim [] (fun tag => tag :: shape.content.toList), EscapeFree text := by
  have hcomma : EscapeFree ", " := by decide
  rw [← escapeFree_facetAttrs]
  simp only [writeFacetAttrsColored]
  split_ifs with hempty
  · rw [List.isEmpty_iff.mp hempty]
    decide
  · simp +decide only [plain_apply, escapeFree_append, escapeFree_intercalate hcomma, true_and,
      and_true]

theorem escapeFree_reprStr (repr : EnumRepr) (text : String) (h : reprStr repr = some text) :
    EscapeFree text := by
  cases repr <;> cases h <;> decide

/-- The head of a type, for a representation of an enum or none. -/
theorem escapeFree_typeHead (shape : Shape ι) {repr : Option String}
    (hrepr : ∀ text, repr = some text → EscapeFree text) :
    EscapeFree (writeTypeHead config plain shape repr) ↔
      ∀ text ∈ shownAbove config shape.doc shape.attributes ++
        shape.tag.elim [] (fun tag => tag :: shape.content.toList), EscapeFree text := by
  have hempty : EscapeFree "" := by decide
  have hline : EscapeFree (repr.elim "" fun repr => "#[" ++ "repr" ++ "(" ++ repr ++ ")]" ++ "\n")
      := by
    cases repr with
    | none => exact hempty
    | some repr => simp +decide [hrepr repr rfl]
  have habove := escapeFree_itemHead config hempty shape.doc shape.attributes
  rw [List.forall_mem_append, ← habove, ← escapeFree_writeFacetAttrs]
  simp +decide only [writeTypeHead, writeItemHead, escapeFree_append, hline, plain_apply, and_true]
  tauto

section

variable {gap : String} (hgap : EscapeFree gap) (typeName : ι → String)

include hgap

theorem escapeFree_fields {indent : String} (hindent : EscapeFree indent)
    (fields : List (Field ι)) :
    EscapeFree (fieldsText config plain gap typeName indent fields) ↔
      (∀ text ∈ fields.flatMap fun field =>
          field.name :: shownAbove config field.doc (allAttributes field), EscapeFree text) ∧
        ∀ t ∈ fields.map Field.shape, EscapeFree (typeName t) := by
  have hfield (field : Field ι) : EscapeFree (fieldText config plain typeName indent field) ↔
      (∀ text ∈ field.name :: shownAbove config field.doc (allAttributes field),
        EscapeFree text) ∧ EscapeFree (typeName field.shape) := by
    simp +decide only [fieldText, plain_apply, escapeFree_append, hindent, and_true,
      escapeFree_itemHead config hindent, List.forall_mem_cons]
    tauto
  rw [fieldsText, escapeFree_intercalate hgap]
  simp only [List.forall_mem_map, hfield, List.forall_mem_flatMap, forall_and]

omit hgap in
theorem escapeFree_tuple (fields : List (Field ι)) :
    EscapeFree (tupleText plain typeName fields) ↔
      ∀ t ∈ fields.map Field.shape, EscapeFree (typeName t) := by
  have hcomma : EscapeFree (plain .punctuation "," ++ " ") := by decide
  rw [tupleText, escapeFree_intercalate hcomma, List.forall_mem_map, List.forall_mem_map]

theorem escapeFree_struct (shape : Shape ι) (ty : StructType ι) :
    EscapeFree (structText config plain gap typeName shape ty) ↔
      (∀ text ∈ Definition.shown config shape (.struct ty), EscapeFree text) ∧
        ∀ t ∈ dataTypes ty, EscapeFree (typeName t) := by
  have hindent : EscapeFree "    " := by decide
  have hhead : EscapeFree (writeTypeHead config plain shape none) ↔ _ :=
    escapeFree_typeHead config shape (by simp)
  simp +decide only [structText, Definition.shown, escapeFree_append, hhead, plain_apply,
    List.forall_mem_cons, List.forall_mem_append, and_true, and_assoc]
  cases hkind : ty.kind with
  | struct =>
    simp +decide only [shownData, dataTypes, hkind, opening, plain_apply, escapeFree_append,
      escapeFree_fields config hgap typeName hindent, true_and, and_true]
  | tuple | tupleStruct =>
    simp +decide only [shownData, dataTypes, hkind, escapeFree_append, escapeFree_tuple, true_and,
      and_true]
  | unit =>
    simp +decide [shownData, dataTypes, hkind]

theorem escapeFree_variant (variant : Variant ι) :
    EscapeFree (variantText config plain gap typeName variant) ↔
      (∀ text ∈ shownAbove config variant.doc variant.attributes
        ++ variant.name :: shownData config variant.data, EscapeFree text) ∧
        ∀ t ∈ dataTypes variant.data, EscapeFree (typeName t) := by
  have hindent : EscapeFree "    " := by decide
  have hindent' : EscapeFree "        " := by decide
  simp +decide only [variantText, escapeFree_append, escapeFree_itemHead config hindent,
    plain_apply, List.forall_mem_cons, List.forall_mem_append, and_true, and_assoc]
  cases hkind : variant.data.kind with
  | struct =>
    simp +decide only [variantDataText, variantContents, shownData, dataTypes, hkind, opening,
      plain_apply, escapeFree_append, escapeFree_fields config hgap typeName hindent']
    tauto
  | tuple | tupleStruct =>
    simp +decide only [variantDataText, variantContents, shownData, dataTypes, hkind, plain_apply,
      escapeFree_append, escapeFree_tuple]
    tauto
  | unit =>
    simp [variantDataText, shownData, dataTypes, hkind]

/-- A definition has no escape character if none of its strings has one. -/
theorem escapeFree_definition (shape : Shape ι) (d : Definition ι) :
    EscapeFree (d.text config plain gap typeName shape) ↔
      (∀ text ∈ d.shown config shape, EscapeFree text) ∧
        ∀ t ∈ d.types, EscapeFree (typeName t) := by
  cases d with
  | struct ty => exact escapeFree_struct config hgap typeName shape ty
  | enum ty =>
    have hhead := escapeFree_typeHead config shape (escapeFree_reprStr ty.enumRepr)
    simp +decide only [Definition.text, enumText, Definition.shown, Definition.types, opening,
      escapeFree_append, hhead, plain_apply, escapeFree_intercalate hgap, List.forall_mem_map,
      escapeFree_variant config hgap typeName, List.forall_mem_cons, List.forall_mem_append,
      List.forall_mem_flatMap, forall_and, and_true, and_assoc]

end

end

section

variable (shapes : Shapes ι)

/-- The identifier of a shape, if its type's name has it. -/
def identifierShown (s : ι) : List String :=
  match nameForm shapes (shapes s) with
  | .identifier | .map _ _ => [(shapes s).typeIdentifier]
  | .referenceToArray _ _ | .list _ | .array _ _ | .option _ => []

/-- The names in the type's name have no escape character. -/
def NamePlain (s : ι) : Prop :=
  ∀ t, ReflTransGen (Descent.Refers (nameArguments shapes)) s t →
    ∀ text ∈ identifierShown shapes t, EscapeFree text

theorem namePlain_iff (s : ι) : NamePlain shapes s ↔
    (∀ text ∈ identifierShown shapes s, EscapeFree text) ∧
      ∀ t ∈ nameArguments shapes s, NamePlain shapes t := by
  constructor
  · intro h
    exact ⟨h s .refl, fun t ht u hu => h u (hu.head ht)⟩
  · rintro ⟨hs, hrest⟩ t ht
    rcases ht.cases_head with rfl | ⟨u, hu, hut⟩
    · exact hs
    · exact hrest u hu t hut

theorem escapeFree_repr (n : ℕ) : EscapeFree n.repr := by
  intro hmem
  rw [Nat.toList_repr] at hmem
  have hdigit := Nat.isDigit_of_mem_toDigits (by decide) (by decide) hmem
  exact absurd hdigit (by decide)

theorem escapeFree_typeName {depth : ℕ} {s : ι} {name : String}
    (h : writeTypeNameColored shapes plain depth s = some name) :
    EscapeFree name ↔ NamePlain shapes s := by
  induction depth generalizing s name with
  | zero => cases h
  | succ depth ih =>
    rw [writeTypeNameColored] at h
    rw [namePlain_iff, identifierShown, nameArguments]
    cases hform : nameForm shapes (shapes s) with
    | identifier =>
      cases hdef : (shapes s).def with
      | _ =>
        simp only [hform, hdef] at h
        cases h
        simp [NameForm.arguments]
    | map k v =>
      simp only [hform, Option.bind_eq_bind, Option.bind_eq_some_iff] at h
      obtain ⟨key, hkey, value, hvalue, h⟩ := h
      cases h
      simp +decide [ih hkey, ih hvalue, NameForm.arguments, and_assoc]
    | list t | option t =>
      simp only [hform, Option.bind_eq_bind, Option.bind_eq_some_iff] at h
      obtain ⟨inner, hinner, h⟩ := h
      cases h
      simp +decide [ih hinner, NameForm.arguments]
    | referenceToArray t n | array t n =>
      simp only [hform, Option.bind_eq_bind, Option.bind_eq_some_iff] at h
      obtain ⟨inner, hinner, h⟩ := h
      cases h
      simp +decide [ih hinner, NameForm.arguments, escapeFree_repr]

end

section

variable (config : ShapeFormatConfig) (shapes : Shapes ι) (paint : Paint) (gap : String) (depth : ℕ)

/-- The text of a type's definition; a type that has none is not printed. -/
def definitionText (s : ι) : String :=
  (definition (shapes s)).elim ""
    (Definition.text config paint gap (nameWithin shapes paint depth) (shapes s))

/-- The definitions of several types, with a separator between them. -/
def definitionTexts (order : List ι) : String :=
  "\n\n".intercalate (order.map (definitionText config shapes paint gap depth))

end

/-- Each step of the writer puts its text behind the output. -/
structure ShapeWriter.Appends {σ : Type} (w : ShapeWriter ι σ) (config : ShapeFormatConfig)
    (gap : String) (output : σ → String) : Prop where
  separate : ∀ out, output (w.separate out) = output out ++ "\n\n"
  define : ∀ typeName shape d out,
    output (w.define typeName shape d out) =
      output out ++ d.text config w.paint gap typeName shape

theorem appends_coloredWriter (config : ShapeFormatConfig) (paint : Paint) :
    (coloredWriter config paint : ShapeWriter ι String).Appends config "\n" id where
  separate out := rfl
  define typeName shape d out := by
    cases d with
    | struct ty => exact congrArg (out ++ ·) (formatStructColored_eq config paint typeName shape ty)
    | enum ty => exact congrArg (out ++ ·) (formatEnumColored_eq config paint typeName shape ty)

section

variable {σ : Type} {w : ShapeWriter ι σ} {config : ShapeFormatConfig} {gap : String}
  {output : σ → String} {shapes : Shapes ι} {depth : ℕ}

theorem ShapeWriter.Appends.visit (h : w.Appends config gap output) {printed next : List ι} {s : ι}
    {out out' : σ} (hvisit : visit shapes w depth printed s out = some (next, out')) :
    output out' = output out ++ (if printed.isEmpty then "" else "\n\n")
      ++ definitionText config shapes w.paint gap depth s := by
  obtain ⟨d, hd, hprint⟩ := Option.bind_eq_some_iff.mp hvisit
  obtain ⟨-, rfl⟩ := printDefinition_spec hd hprint
  rw [h.define, definitionText, hd]
  split_ifs
  · rw [String.append_empty, Option.elim_some]
  · rw [h.separate, Option.elim_some]

theorem ShapeWriter.Appends.visitAll (h : w.Appends config gap output) {xs printed : List ι}
    (hprinted : printed ≠ []) {out out' : σ}
    (hvisits : Worklist.visitAll (Pretty.visit shapes w depth) printed xs out = some out') :
    output out' = output out
      ++ String.join (xs.map fun s => "\n\n" ++ definitionText config shapes w.paint gap depth s)
    := by
  induction xs generalizing printed out with
  | nil =>
    cases hvisits
    exact String.append_empty.symm
  | cons s xs ih =>
    rw [Worklist.visitAll] at hvisits
    cases hvisit : Pretty.visit shapes w depth printed s out with
    | none =>
      rw [hvisit] at hvisits
      cases hvisits
    | some result =>
      obtain ⟨next, mid⟩ := result
      rw [hvisit] at hvisits
      have hempty : printed.isEmpty = false := by simpa using hprinted
      rw [ih (by simp) hvisits, h.visit hvisit, hempty, List.map_cons, String.join_cons]
      simp only [Bool.false_eq_true, if_false, String.append_assoc]

theorem intercalate_cons (between x : String) (xs : List String) :
    between.intercalate (x :: xs) = x ++ String.join (xs.map (between ++ ·)) := by
  induction xs generalizing x with
  | nil => simp
  | cons y ys ih => rw [String.intercalate_cons_cons, ih, List.map_cons, String.join_cons,
      String.append_assoc, String.append_assoc]

variable [DecidableEq ι]

/-- What a run of the loop from an empty output has written: the definitions of the types, in
order. -/
theorem ShapeWriter.Appends.formatQueue (h : w.Appends config gap output) {root : ι}
    (hroot : Defines shapes root) {fuel : ℕ} {out out' : σ} (hempty : output out = "")
    {order : List ι}
    (hrun : Pretty.formatQueue shapes w depth fuel [root] [] out = some (order, out')) :
    output out' = definitionTexts config shapes w.paint gap depth order := by
  obtain ⟨⟨rest, rfl⟩, -, -, hvisits⟩ := formatQueue_spec hroot hrun
  rw [Worklist.visitAll] at hvisits
  cases hvisit : Pretty.visit shapes w depth [] root out with
  | none =>
    rw [hvisit] at hvisits
    cases hvisits
  | some result =>
    obtain ⟨next, mid⟩ := result
    rw [hvisit] at hvisits
    rw [h.visitAll (List.cons_ne_nil _ _) hvisits, h.visit hvisit, hempty, definitionTexts,
      List.map_cons, intercalate_cons, List.map_map]
    simp [Function.comp_def]

end

section

variable {config : ShapeFormatConfig} {shapes : Shapes ι} {gap : String} {depth : ℕ}

/-- No string in the type's definition has an escape character. -/
def DefinitionPlain (config : ShapeFormatConfig) (shapes : Shapes ι) (s : ι) : Prop :=
  ∀ d, definition (shapes s) = some d →
    (∀ text ∈ d.shown config (shapes s), EscapeFree text) ∧ ∀ t ∈ d.types, NamePlain shapes t

theorem Definition.exists_of_mem_types {d : Definition ι} {t : ι} (h : t ∈ d.types) :
    ∃ field ∈ d.fields, field.shape = t := by
  have hdata {data : StructType ι} (ht : t ∈ dataTypes data) :
      ∃ field ∈ data.fields, field.shape = t := by
    unfold dataTypes at ht
    cases hkind : data.kind with
    | unit => simp [hkind] at ht
    | _ => simpa [hkind] using ht
  cases d with
  | struct ty => exact hdata h
  | enum ty =>
    obtain ⟨variant, hvariant, ht⟩ := List.mem_flatMap.mp h
    obtain ⟨field, hfield, hshape⟩ := hdata ht
    exact ⟨field, List.mem_flatMap.mpr ⟨variant, hvariant, hfield⟩, hshape⟩

theorem escapeFree_definitionText (hgap : EscapeFree gap) {s : ι}
    (hnames : ∀ d, definition (shapes s) = some d →
      ∀ field ∈ d.fields, (writeTypeNameColored shapes plain depth field.shape).isSome) :
    EscapeFree (definitionText config shapes plain gap depth s) ↔
      DefinitionPlain config shapes s := by
  rw [definitionText, DefinitionPlain]
  cases hd : definition (shapes s) with
  | none => simp +decide
  | some d =>
    have hname (t : ι) (ht : t ∈ d.types) :
        EscapeFree (nameWithin shapes plain depth t) ↔ NamePlain shapes t := by
      obtain ⟨field, hfield, rfl⟩ := d.exists_of_mem_types ht
      obtain ⟨name, hname⟩ := Option.isSome_iff_exists.mp (hnames d hd field hfield)
      rw [nameWithin, hname]
      exact escapeFree_typeName shapes hname
    rw [Option.elim_some, escapeFree_definition config hgap]
    simp only [Option.some.injEq, forall_eq']
    exact and_congr_right fun _ => forall₂_congr hname

/-- The plain texts of definitions are free of escape characters if the strings in them are. -/
theorem escapeFree_definitionTexts (hgap : EscapeFree gap) {order : List ι}
    (hnames : ∀ s ∈ order, ∀ d, definition (shapes s) = some d →
      ∀ field ∈ d.fields, (writeTypeNameColored shapes plain depth field.shape).isSome) :
    EscapeFree (definitionTexts config shapes plain gap depth order) ↔
      ∀ s ∈ order, DefinitionPlain config shapes s := by
  have hbetween : EscapeFree "\n\n" := by decide
  rw [definitionTexts, escapeFree_intercalate hbetween, List.forall_mem_map]
  exact forall₂_congr fun s hs => escapeFree_definitionText hgap (hnames s hs)

theorem stripsTo_definitionTexts {paint : Paint} (hpaint : paint.Surrounds) (order : List ι) :
    StripsTo (definitionTexts config shapes paint gap depth order)
      (definitionTexts config shapes plain gap depth order) := by
  apply StripsTo.intercalate (.refl _) (forall₂_map _)
  intro s _
  unfold definitionText
  cases definition (shapes s) with
  | none =>
    rw [Option.elim_none, Option.elim_none]
    exact .refl ""
  | some d => exact stripsTo_definition hpaint (stripsTo_nameWithin hpaint depth) (shapes s) d

end

end Facet.Pretty
