import SearchComposer.Condition.Value
import SearchComposer.Proofs.Json.Printer
import SearchComposer.Proofs.Outline.Chains
import SearchComposer.Proofs.Schema.Mapping
import SearchComposer.Proofs.Time.Read
import SearchComposer.Settings.Basic

/-!
# What is encoded is decoded

Values, shapes, settings and properties are written as JSON and read back. The cases of a value need
no tag: a text is no object, and the objects of a date and of a space lack each other's keys. A shape
is put together again from its entries, in whatever order these are put. Names of data types are made
uniform when they are read, so only a type that has come from a name is got back from its own.
-/

namespace SearchComposer

open Time (Instant)

/-! ## Values -/

theorem Space.ofJson?_toJson (s : Space) : Space.ofJson? s.toJson = some s := by
  have hkeys : s.toJson.record? ["id", "name"] = some [some (.str s.id), some (.str s.name)] := rfl
  rw [Space.ofJson?, hkeys]
  rfl

/-- A date needs an instant that can be written. -/
theorem DateValue.ofJson?_toJson {d : DateValue} (h : d.instant.toUtc.Exists) :
    DateValue.ofJson? d.toJson = some d := by
  have hkeys : d.toJson.record? ["datetime", "timeEnabled"] =
      some [some (.str d.instant.text), some (.bool d.withTime)] := rfl
  rw [DateValue.ofJson?, hkeys]
  simp only [Option.bind_eq_bind, Option.bind_some, Json.str?, Instant.read?_text h, Json.bool?,
    Option.pure_def]

/-- An object without an instant is no date. -/
theorem DateValue.ofJson?_space (s : Space) : DateValue.ofJson? s.toJson = none := by
  have hkeys : s.toJson.record? ["datetime", "timeEnabled"] = some [none, none] := rfl
  rw [DateValue.ofJson?, hkeys]
  rfl

theorem DateValue.exists_of_ofJson? {j : Json} {d : DateValue} (h : DateValue.ofJson? j = some d) :
    d.instant.toUtc.Exists := by
  unfold DateValue.ofJson? at h
  obtain ⟨fields, -, h⟩ := Option.bind_eq_some_iff.mp h
  split at h
  · simp only [Option.bind_eq_bind, Option.bind_eq_some_iff, Option.pure_def, Option.some.injEq] at h
    obtain ⟨_, -, _, -, i, hi, _, -, _, -, rfl⟩ := h
    exact Instant.exists_of_read? hi
  · cases h

namespace Value

/-- Whether the instant of a value exists, if it has one. -/
def Exists : Value → Prop
  | text _ => True
  | date d => d.instant.toUtc.Exists
  | space _ => True

instance : (v : Value) → Decidable v.Exists
  | text _ => inferInstanceAs (Decidable True)
  | date d => inferInstanceAs (Decidable d.instant.toUtc.Exists)
  | space _ => inferInstanceAs (Decidable True)

theorem ofJson?_toJson {v : Value} (h : v.Exists) : ofJson? v.toJson = some v := by
  cases v with
  | text s => rfl
  | date d =>
    rw [ofJson?, toJson, DateValue.ofJson?_toJson h]
    rfl
  | space s =>
    rw [ofJson?, toJson, DateValue.ofJson?_space, Space.ofJson?_toJson]
    rfl

theorem exists_of_ofJson? {j : Json} {v : Value} (h : ofJson? j = some v) : v.Exists := by
  unfold ofJson? at h
  cases htext : j.str? with
  | some s =>
    rw [htext] at h
    cases h
    trivial
  | none =>
    cases hdate : DateValue.ofJson? j with
    | some d =>
      rw [htext, hdate] at h
      cases h
      exact DateValue.exists_of_ofJson? hdate
    | none =>
      rw [htext, hdate] at h
      obtain ⟨s, -, rfl⟩ := Option.map_eq_some_iff.mp h
      trivial

end Value

/-! ## Shapes -/

namespace Shape

theorem node?_or_empty (o : Option (Unit × Shape)) (name : String) :
    o.or (Outline.node? .empty name) = o :=
  Option.or_none

/-- Reading entries adds their nodes to a shape, each in the place of a node of its name. -/
theorem exists_ofEntries? {f : Forest Unit} (hf : f.Sorted) (s : Shape) :
    ∃ t, ofEntries? (entriesOf f) s = some t ∧
      ∀ name, t.node? name = ((⟨f, hf⟩ : Shape).node? name).or (s.node? name) := by
  induction f generalizing s with
  | nil => exact ⟨s, rfl, fun _ => rfl⟩
  | node name value children siblings ihChildren ihSiblings =>
    obtain ⟨below, hbelow, hnodes⟩ := ihChildren hf.2.1 .empty
    -- read into the empty shape, the children are as they were
    obtain rfl : below = ⟨children, hf.2.1⟩ :=
      Outline.ext_node? fun n => by rw [hnodes, node?_or_empty]
    obtain ⟨t, ht, hrest⟩ := ihSiblings hf.2.2 (s.graft name ⟨children, hf.2.1⟩)
    refine ⟨t, ?_, fun n => ?_⟩
    · rw [entriesOf, ofEntries?, ofJson?, hbelow]
      exact ht
    · rw [hrest, Outline.node?_node hf]
      by_cases hname : n = name
      · -- no sibling has the name, so the node stays in its place
        have hsibling : (⟨siblings, hf.2.2⟩ : Shape).node? name = none := by
          refine Option.eq_none_iff_forall_ne_some.mpr fun found hfound => ?_
          rw [Outline.node?_eq_some, hf.1.find?_eq_none] at hfound
          cases hfound
        rw [hname, hsibling, if_pos rfl, Option.none_or, graft, Outline.node?_put_self,
          Option.some_or]
      · rw [if_neg hname, graft, Outline.node?_put_of_ne hname]

theorem ofJson?_toJson (s : Shape) : ofJson? s.toJson = some s := by
  obtain ⟨t, ht, hnodes⟩ := exists_ofEntries? s.sorted .empty
  have hts : t = s := Outline.ext_node? fun n => by rw [hnodes, node?_or_empty]
  rw [toJson, ofJson?, ht, hts]

end Shape

/-! ## Settings -/

namespace Settings

theorem strings?_ofStrings (texts : List String) : strings? (.ofStrings texts) = some texts := by
  have hmap : (texts.map Json.str).mapM Json.str? = some texts := by
    induction texts with
    | nil => rfl
    | cons s texts ih =>
      rw [List.map_cons, List.mapM_cons, ih]
      rfl
  exact hmap

theorem int32?_toInt (n : Int32) : int32? n.toInt = some n := by
  rw [int32?, if_pos ⟨n.minValue_le_toInt, n.toInt_le⟩, Int32.ofInt_toInt]

theorem word?_ofWord (n : UInt64) : (Json.ofWord n).word? = some n := by
  have hint : (Json.ofWord n).int? = some (n.toNat : Int) := rfl
  have hrange : 0 ≤ (n.toNat : Int) ∧ (n.toNat : Int) < UInt64.size :=
    ⟨Int.natCast_nonneg _, Int.ofNat_lt.mpr n.toNat_lt_size⟩
  rw [Json.word?, hint, Option.bind_eq_bind, Option.bind_some, if_pos hrange, Int.toNat_natCast,
    UInt64.ofNat_toNat]

theorem offset?_ofOption (n? : Option Int32) :
    offset? (.ofOption (fun n => .ofInt n.toInt) n?) = some n? := by
  cases n? with
  | none => rfl
  | some n =>
    have hoffset : offset? (.ofInt n.toInt) = (int32? n.toInt).bind fun n => some (some n) := rfl
    rw [Json.ofOption, hoffset, int32?_toInt, Option.bind_some]

theorem ofName?_name (d : Direction) : Direction.ofName? d.name = some d := by
  cases d <;> decide

/-- Settings of which no key is missing are read from what is under the keys. -/
theorem ofJson?_of_fields {j size direction space fields minutes : Json} {s : Settings}
    (hkeys : j.partialRecord? keys =
      some [some size, some direction, some space, some fields, some minutes])
    (hsize : size.word? = some s.pageSize)
    (hdirection : direction.caseName?.bind Direction.ofName? = some s.direction)
    (hspace : space.str? = some s.spaceField) (hfields : strings? fields = some s.anyPropertyFields)
    (hminutes : offset? minutes = some s.utcOffset?) : ofJson? j = some s := by
  rw [ofJson?, hkeys]
  simp only [Option.bind_eq_bind, Option.bind_some, orDefault, hsize, hdirection, hspace, hfields,
    hminutes, Option.pure_def]

theorem ofJson?_toJson (s : Settings) : ofJson? s.toJson = some s := by
  have hkeys : s.toJson.partialRecord? keys = some [some (.ofWord s.pageSize),
      some (.str s.direction.name), some (.str s.spaceField), some (.ofStrings s.anyPropertyFields),
      some (.ofOption (fun n => .ofInt n.toInt) s.utcOffset?)] := rfl
  exact ofJson?_of_fields hkeys (word?_ofWord _) (ofName?_name _) rfl (strings?_ofStrings _)
    (offset?_ofOption _)

end Settings

/-! ## Properties -/

namespace DataType

/-- A name that is known is the one of its type, and one that is not known is kept. -/
theorem name_ofName (s : String) : (ofName s).name = s ∨ ofName s = number := by
  unfold ofName
  cases hknown : known.find? (·.name == s) with
  | some t => exact .inl (by simpa using List.find?_some hknown)
  | none =>
    by_cases hnumeric : s ∈ numericNames
    · exact .inr (if_pos hnumeric)
    · left
      simp only [if_neg hnumeric]
      rfl

/-- A type that has come from a name is got back from its own name. -/
theorem ofName_name_ofName (s : String) : ofName (ofName s).name = ofName s := by
  rcases name_ofName s with hname | hnumber
  · rw [hname]
  · rw [hnumber]
    decide

/-- A definition without a type has the type of the name `object`. -/
theorem exists_name_ofMapping (s? : Option String) : ∃ s, ofMapping s? = .ofName s := by
  cases s? with
  | none => exact ⟨"object", by decide⟩
  | some s => exact ⟨s, rfl⟩

end DataType

namespace Property

theorem originOfName?_name (o : Origin) : Origin.ofName? o.name = some o := by
  cases o <;> decide

/-- A property is read from what is under its keys; `null` stands for no parent. -/
theorem ofJson?_of_fields {j name path type origin isField parent : Json} {p : Property}
    (hkeys : j.record? keys =
      some [some name, some path, some type, some origin, some isField, some parent])
    (hname : name.str? = some p.name) (hpath : path.str? = some p.path) {s : String}
    (htype : type.str? = some s) (hs : DataType.ofName s = p.dataType)
    (horigin : origin.caseName?.bind Origin.ofName? = some p.origin)
    (hisField : isField.bool? = some p.isField) (hparent : parent = .ofOption .str p.parentPath?) :
    ofJson? j = some p := by
  obtain ⟨o, ho, horigin⟩ := Option.bind_eq_some_iff.mp horigin
  obtain ⟨_, _, _, _, _, parentPath?⟩ := p
  subst hparent
  rw [ofJson?, hkeys, Option.bind_eq_bind, Option.bind_some]
  dsimp only [Option.bind_eq_bind, Option.bind_some]
  rw [hname, hpath, htype, ho, hisField]
  simp only [Option.bind_some, horigin, hs]
  cases parentPath? <;> rfl

theorem ofJson?_toJson {p : Property} (h : ∃ s, p.dataType = .ofName s) :
    ofJson? p.toJson = some p := by
  obtain ⟨s, hs⟩ := h
  have hkeys : p.toJson.record? keys = some [some (.str p.name), some (.str p.path),
      some (.str p.dataType.name), some (.str p.origin.name), some (.bool p.isField),
      some (.ofOption .str p.parentPath?)] := rfl
  have htype : DataType.ofName p.dataType.name = p.dataType := by
    rw [hs, DataType.ofName_name_ofName]
  exact ofJson?_of_fields hkeys rfl rfl rfl htype (originOfName?_name _) rfl rfl

end Property

/-! ## Properties of a schema -/

namespace Schema

/-- The types of all properties of a schema have come from names. -/
theorem exists_name_of_mem_properties {mapping : Json} {s : Schema}
    (hd : mapping.distinctKeys = true) (h : ofMapping mapping = .ok s) {p : Property}
    (hp : p ∈ s.properties) : ∃ name, p.dataType = .ofName name := by
  rcases List.mem_append.mp hp with hnode | hsynthetic
  · obtain ⟨chain, below, hat⟩ := Outline.mem_values_iff.mp hnode
    obtain ⟨above, name, found, -, -, rfl⟩ := exists_definition hd h hat
    exact DataType.exists_name_ofMapping _
  · rcases List.mem_cons.mp hsynthetic with rfl | hspace
    · exact ⟨"anyProperty", by decide⟩
    · obtain rfl := List.mem_singleton.mp hspace
      exact ⟨"space", by decide⟩

end Schema

/-! ## As texts -/

section Legible

open Json (Legible)

variable {levels : Nat}

theorem Value.legible_toJson (v : Value) : Legible (levels + 1) v.toJson := by
  cases v with
  | text s => exact .str s
  | date d =>
    refine .obj (by decide : ["datetime", "timeEnabled"].Nodup) ?_
    simp only [List.forall_mem_cons]
    exact ⟨.str _, .bool _, nofun⟩
  | space s =>
    refine .obj (by decide : ["id", "name"].Nodup) ?_
    simp only [List.forall_mem_cons]
    exact ⟨.str _, .str _, nofun⟩

theorem Property.legible_toJson (p : Property) : Legible (levels + 1) p.toJson := by
  have hparent : Legible levels (.ofOption .str p.parentPath?) := by
    cases p.parentPath? with
    | none => exact .null
    | some path => exact .str path
  refine .obj (by decide : keys.Nodup) ?_
  simp only [List.forall_mem_cons]
  exact ⟨.str _, .str _, .str _, .str _, .bool _, hparent, nofun⟩

theorem Settings.legible_toJson (s : Settings) : Legible (levels + 2) s.toJson := by
  have hsize : Legible (levels + 1) (.ofWord s.pageSize) := by
    have hlt := s.pageSize.toNat_lt_size
    exact .int ⟨by omega, Int.ofNat_lt.mpr hlt⟩
  have hfields : Legible (levels + 1) (.ofStrings s.anyPropertyFields) := by
    refine .arr fun j hj => ?_
    obtain ⟨field, -, rfl⟩ := List.mem_map.mp hj
    exact .str field
  have hoffset : Legible (levels + 1) (.ofOption (fun n => .ofInt n.toInt) s.utcOffset?) := by
    cases s.utcOffset? with
    | none => exact .null
    | some n =>
      have hleast : -2 ^ 31 ≤ n.toInt := n.minValue_le_toInt
      have hgreatest : n.toInt ≤ 2 ^ 31 - 1 := n.toInt_le
      have hfits : -(2 ^ 63) ≤ n.toInt ∧ n.toInt < 2 ^ 64 := by omega
      exact .int hfits
  refine .obj (by decide : keys.Nodup) ?_
  simp only [List.forall_mem_cons]
  exact ⟨hsize, .str _, .str _, hfields, hoffset, nofun⟩

namespace Shape

theorem keys_entriesOf (f : Forest Unit) : Json.Entries.keys (entriesOf f) = f.names := by
  induction f with
  | nil => rfl
  | node name value children siblings _ ih => exact congrArg (name :: ·) ih

theorem legible_of_mem_entriesOf {f : Forest Unit} (hf : f.Sorted)
    (h : ∀ chain ∈ f.chains, chain.length ≤ levels) : ∀ e ∈ entriesOf f, Legible levels e.2 := by
  induction f generalizing levels with
  | nil => exact nofun
  | node name value children siblings ihChildren ihSiblings =>
    obtain ⟨_, hchildren, hsiblings⟩ := hf
    have hself := h [name] (Forest.mem_chains_node.mpr (.inl rfl))
    obtain ⟨below, rfl⟩ : ∃ below, levels = below + 1 := ⟨levels - 1, by simp at hself; omega⟩
    refine List.forall_mem_cons.mpr ⟨?_, ?_⟩
    · refine .obj ?_ (ihChildren hchildren fun chain hchain => ?_)
      · rw [keys_entriesOf]
        exact hchildren.nodup_names
      · have hlonger := h (name :: chain) (Forest.mem_chains_node.mpr (.inr (.inl ⟨chain, hchain, rfl⟩)))
        exact Nat.le_of_succ_le_succ hlonger
    · exact ihSiblings hsiblings fun chain hchain =>
        h chain (Forest.mem_chains_node.mpr (.inr (.inr hchain)))

/-- The object of a shape has one level more than its longest chain has names. -/
theorem legible_toJson {s : Shape} (h : ∀ chain ∈ s.chains, chain.length ≤ levels) :
    Legible (levels + 1) s.toJson := by
  refine .obj ?_ (legible_of_mem_entriesOf s.sorted h)
  rw [keys_entriesOf]
  exact s.sorted.nodup_names

end Shape

end Legible

/-! ## All that is encoded -/

/-- Values, shapes, settings and properties are got back from what they are written as, a value as
the same case of a value; and what they are written as is got back from its text. For a value this
takes an instant that exists, as those of all values that are read do; for a property it takes a type
that has come from a name, as those of all properties of a schema have. Of a shape only the text has
a limit, the one on the nesting of all that is read. To make the name of a type uniform twice is to do
it once. -/
theorem encoding_loses_nothing :
    (∀ v : Value, v.Exists → Value.ofJson? v.toJson = some v ∧
      Json.read? v.toJson.compact = some v.toJson) ∧
    (∀ j v, Value.ofJson? j = some v → v.Exists) ∧
    (∀ s : Shape, Shape.ofJson? s.toJson = some s ∧
      ((∀ chain ∈ s.chains, chain.length < Json.maxDepth) →
        Json.read? s.toJson.compact = some s.toJson)) ∧
    (∀ s : Settings, Settings.ofJson? s.toJson = some s ∧
      Json.read? s.toJson.compact = some s.toJson) ∧
    (∀ p : Property, (∃ name, p.dataType = .ofName name) → Property.ofJson? p.toJson = some p ∧
      Json.read? p.toJson.compact = some p.toJson) ∧
    (∀ mapping s, mapping.distinctKeys = true → Schema.ofMapping mapping = .ok s →
      ∀ p ∈ s.properties, ∃ name, p.dataType = .ofName name) ∧
    ∀ name, DataType.ofName (DataType.ofName name).name = .ofName name := by
  refine ⟨fun v hv => ⟨Value.ofJson?_toJson hv, v.legible_toJson.read?_compact⟩,
    fun _ _ => Value.exists_of_ofJson?, fun s => ⟨s.ofJson?_toJson, fun hdepth => ?_⟩,
    fun s => ⟨s.ofJson?_toJson, s.legible_toJson.read?_compact⟩,
    fun p hp => ⟨Property.ofJson?_toJson hp, p.legible_toJson.read?_compact⟩,
    fun _ _ hd h _ => Schema.exists_name_of_mem_properties hd h, DataType.ofName_name_ofName⟩
  exact (Shape.legible_toJson fun chain hchain => Nat.le_of_lt_succ (hdepth chain hchain)).read?_compact

/-- A leap second in a year of five digits, the shape of a nested key, and a property that its mapping
gives another name of its type. -/
theorem encoding_loses_nothing_in_leap_second :
    let v : Value := .date ⟨⟨317052748799, 1500000000⟩, true⟩
    let shape : Shape := Outline.empty.put "a" () (Outline.empty.put "b" () .empty)
    let size : Property := .mapped none "size" .number false
    let mapping : Json := .obj [("mappings", .obj [("properties",
      .obj [("size", .obj [("type", .str "long")])])])]
    v.Exists ∧ v.toJson = .obj [("datetime", .str "+12016-12-31T23:59:60.500Z"),
        ("timeEnabled", .bool true)] ∧
      Value.ofJson? v.toJson = some v ∧ Json.read? v.toJson.compact = some v.toJson ∧
      Json.read? shape.toJson.compact = some shape.toJson ∧
      ∃ s, mapping.distinctKeys = true ∧ Schema.ofMapping mapping = .ok s ∧ size ∈ s.properties ∧
        Property.ofJson? size.toJson = some size ∧
        Json.read? size.toJson.compact = some size.toJson := by
  intro v shape size mapping
  obtain ⟨hvalues, -, hshapes, -, hproperties, htypes, -⟩ := encoding_loses_nothing
  obtain ⟨hvalue, hvalueText⟩ := hvalues v (by decide)
  have hd : mapping.distinctKeys = true := by decide
  obtain ⟨s, hs, hsize⟩ : ∃ s, Schema.ofMapping mapping = .ok s ∧ size ∈ s.properties :=
    ⟨_, rfl, by decide⟩
  obtain ⟨hproperty, hpropertyText⟩ := hproperties size (htypes mapping s hd hs size hsize)
  exact ⟨by decide, rfl, hvalue, hvalueText, (hshapes shape).2 (by decide), s, hd, hs, hsize,
    hproperty, hpropertyText⟩

end SearchComposer
