import Realign.Module.Document
import Realign.Proofs.Alignment.Frame
import Realign.Proofs.Document
import Realign.Proofs.Text

/-!
Documents of modules are read back as they were written. What is left out when a module is
written is what a record starts with when it is read, and every table and list comes back in its
order. The one part that is not written as it stands is the parent: it becomes one text that is
taken apart again. That gives the same identity if it was once read from a text itself, as the
parents of all modules are that come from a document. A pass over the modules keeps it so, since
it changes no parent.
-/
namespace Realign

open Document

namespace Ident

/-- An identity that comes back from its own text. -/
def Readable (i : Ident) : Prop := parse i.toString = .ok i

/-- What is read from a text comes back from its own. -/
theorem readable_of_parse {text : String} {i : Ident} (h : parse text = .ok i) : i.Readable := by
  have hread := h
  unfold parse at h
  split at h
  · rename_i group artifact hpieces
    split at h
    · cases h
      have htrim : Text.trim text.toList = group ++ ':' :: artifact := by
        rw [← Text.intercalate_piecesAt ':' (Text.trim text.toList), hpieces]
        simp
      -- only the ends of a text are trimmed, and here they are trimmed already
      have hself : (ofChars group artifact).toString.toList = Text.trim text.toList := by
        simp [toString, ofChars, htrim]
      unfold Readable parse
      rw [hself, Text.trim_trim, hpieces]
      rename_i hne
      simp only [hne, ne_eq, not_false_eq_true, and_self, if_true]
    · cases h
  · cases h

theorem parse_of_document {text : String} {i : Ident} (h : Document.ident text = .ok i) :
    parse text = .ok i := by
  unfold Document.ident at h
  split at h
  · rename_i hparse
    cases h
    exact hparse
  · cases h

end Ident

namespace Artifact

section Optional

variable {name : String} {text : Option String} {m : String × Json}

theorem names_optionalMember (name : String) (text : Option String) :
    ((optionalMember name text).map Prod.fst).Sublist [name] := by
  cases text <;> simp [optionalMember]

theorem mem_optionalMember (h : m ∈ optionalMember name text) : ∃ value, m.2 = .string value := by
  cases text with
  | none => cases h
  | some value => exact ⟨value, by rw [List.mem_singleton.1 h]⟩

end Optional

theorem layout : Layout fields ["groupId", "artifactId", "version", "scope"] [] :=
  ⟨by decide, by decide, by decide⟩

/-- An artifact is read back as it was written. -/
theorem ofJson_toJson (a : Artifact) : ofJson a.toJson = .ok a := by
  have hidents : setAll fields ⟨⟨"", ""⟩, none, none⟩
      [("groupId", .string a.ident.group), ("artifactId", .string a.ident.artifact)] =
        .ok ⟨a.ident, none, none⟩ := rfl
  have hversion : setAll fields ⟨a.ident, none, none⟩ (optionalMember "version" a.version) =
      .ok ⟨a.ident, a.version, none⟩ := by
    cases a.version <;> rfl
  have hscope : setAll fields ⟨a.ident, a.version, none⟩ (optionalMember "scope" a.scope) =
      .ok a := by
    obtain ⟨ident, version, _ | scope⟩ := a <;> rfl
  have hset := (setAll_append ((setAll_append hidents).trans hversion)).trans hscope
  have hnames := ((List.Sublist.refl ["groupId", "artifactId"]).append
    (names_optionalMember "version" a.version)).append (names_optionalMember "scope" a.scope)
  exact record_object ["groupId", "artifactId"] layout (by simpa using hnames) (by simp) hset

/-- All that an artifact is written with are texts. -/
theorem forall_mem_toJson {P : Json → Prop} (h : ∀ text, P (.string text)) (a : Artifact) :
    ∃ members, a.toJson = .object members ∧ ∀ m ∈ members, P m.2 := by
  refine ⟨_, rfl, fun m hm => ?_⟩
  have htext : ∃ value, m.2 = .string value := by
    rcases List.mem_append.1 hm with hm | hm
    · rcases List.mem_append.1 hm with hm | hm
      · rcases List.mem_cons.1 hm with rfl | hm
        · exact ⟨_, rfl⟩
        · rw [List.mem_singleton.1 hm]
          exact ⟨_, rfl⟩
      · exact mem_optionalMember hm
    · exact mem_optionalMember hm
  obtain ⟨value, hvalue⟩ := htext
  rw [hvalue]
  exact h value

end Artifact

namespace ArtifactLists

def names : List String :=
  ["dependencies", "dependencyManagement", "plugins", "pluginManagement"]

theorem names_memberOf (name : String) (artifacts : List Artifact) :
    ((memberOf name artifacts).map Prod.fst).Sublist [name] := by
  cases artifacts <;> simp [memberOf]

theorem names_toMembers (l : ArtifactLists) : (l.toMembers.map Prod.fst).Sublist names := by
  simp only [toMembers, List.map_append]
  exact (((names_memberOf "dependencies" _).append (names_memberOf "dependencyManagement" _)).append
    (names_memberOf "plugins" _)).append (names_memberOf "pluginManagement" _)

theorem list_toJson (artifacts : List Artifact) :
    list Artifact.ofJson (.array (artifacts.map Artifact.toJson)) = .ok artifacts :=
  items_map fun a _ => Artifact.ofJson_toJson a

/-- A list that is left out is the one that was there. -/
theorem setAll_memberOf (put : List Artifact → ArtifactLists → ArtifactLists) {name : String}
    (hl : fields.lookup name = some fun json l => return put (← list Artifact.ofJson json) l)
    {l : ArtifactLists} (hempty : put [] l = l) (artifacts : List Artifact) :
    setAll fields l (memberOf name artifacts) = .ok (put artifacts l) := by
  cases artifacts with
  | nil =>
    rw [hempty]
    rfl
  | cons a artifacts => exact setAll_member put hl (list_toJson (a :: artifacts)) l

/-- The artifacts of a place are read back as they were written. -/
theorem ofMembers_toMembers (l : ArtifactLists) : ofMembers l.toMembers = .ok l := by
  obtain ⟨dependencies, managed, plugins, managedPlugins⟩ := l
  have hdependencies : setAll fields {} (memberOf "dependencies" dependencies) =
      .ok { dependencies } :=
    setAll_memberOf (fun artifacts l => { l with dependencies := artifacts }) rfl rfl _
  have hmanaged : setAll fields { dependencies } (memberOf "dependencyManagement" managed) =
      .ok { dependencies, managedDependencies := managed } :=
    setAll_memberOf (fun artifacts l => { l with managedDependencies := artifacts })
      rfl rfl _
  have hplugins : setAll fields { dependencies, managedDependencies := managed }
      (memberOf "plugins" plugins) = .ok ⟨dependencies, managed, plugins, []⟩ :=
    setAll_memberOf (fun artifacts l => { l with plugins := artifacts }) rfl rfl _
  have hmanagedPlugins : setAll fields ⟨dependencies, managed, plugins, []⟩
      (memberOf "pluginManagement" managedPlugins) =
        .ok ⟨dependencies, managed, plugins, managedPlugins⟩ :=
    setAll_memberOf (fun artifacts l => { l with managedPlugins := artifacts }) rfl rfl _
  have hset := (setAll_append ((setAll_append ((setAll_append hdependencies).trans
    hmanaged)).trans hplugins)).trans hmanagedPlugins
  have hnd := (names_toMembers ⟨dependencies, managed, plugins, managedPlugins⟩).nodup (by decide)
  have hfill := fill_of_distinct false (⟨{}, [], []⟩ : Filled ArtifactLists) hnd (by simp)
    (fun hk => by cases hk) hset
  exact exceptBind_eq_ok.2 ⟨_, hfill, rfl⟩

theorem mem_memberOf {name : String} {artifacts : List Artifact} {m : String × Json}
    (h : m ∈ memberOf name artifacts) : m.2 = .array (artifacts.map Artifact.toJson) := by
  cases artifacts with
  | nil => cases h
  | cons a artifacts => rw [List.mem_singleton.1 h]

theorem mem_toMembers {l : ArtifactLists} {m : String × Json} (h : m ∈ l.toMembers) :
    ∃ artifacts : List Artifact, m.2 = .array (artifacts.map Artifact.toJson) := by
  simp only [toMembers, List.mem_append] at h
  rcases h with ((h | h) | h) | h <;> exact ⟨_, mem_memberOf h⟩

/-- The artifact lists of a place can be kept for a second look. -/
theorem isFit_toMembers {l : ArtifactLists} {m : String × Json} (h : m ∈ l.toMembers) :
    m.2.isFit = true := by
  obtain ⟨artifacts, hm⟩ := mem_toMembers h
  rw [hm, Json.isFit, Json.allFit_iff]
  intro json hjson
  obtain ⟨a, -, rfl⟩ := List.mem_map.1 hjson
  obtain ⟨members, ha, hfit⟩ := Artifact.forall_mem_toJson (P := fun json => json.isFit = true)
    (fun _ => rfl) a
  rw [ha, Json.isFit, Json.membersFit_iff]
  exact hfit

theorem shallow_toMembers {l : ArtifactLists} {m : String × Json} (h : m ∈ l.toMembers)
    (levels : Nat) : m.2.Shallow (levels + 2) := by
  obtain ⟨artifacts, hm⟩ := mem_toMembers h
  rw [hm]
  apply Json.shallow_array
  intro json hjson
  obtain ⟨a, -, rfl⟩ := List.mem_map.1 hjson
  obtain ⟨members, ha, hshallow⟩ := Artifact.forall_mem_toJson (P := Json.Shallow levels)
    (fun _ => rfl) a
  rw [ha]
  exact Json.shallow_object hshallow

end ArtifactLists

namespace Declarations

variable {properties : Table String String}

theorem names_propertyMembers (properties : Table String String) :
    ((propertyMembers properties).map Prod.fst).Sublist ["properties"] := by
  unfold propertyMembers
  split <;> simp

/-- Properties are read back in their order. -/
theorem readProperties_rows (properties : Table String String) :
    readProperties (.object (properties.rows.map fun (name, value) => (name, .string value))) =
      .ok properties := by
  have hrows := enterRows_map (.ok : String → Result String) id
    (fun row (_ : row ∈ properties.rows) => rfl) .empty
  have htable := Table.ofRows_rows properties
  rw [Table.ofRows] at htable
  rw [htable] at hrows
  exact hrows

theorem setAll_propertyMembers (put : Table String String → α → α) {fields : Fields α}
    (hl : fields.lookup "properties" = some fun json v => return put (← readProperties json) v)
    {value : α} (hempty : put .empty value = value) (properties : Table String String) :
    setAll fields value (propertyMembers properties) = .ok (put properties value) := by
  unfold propertyMembers
  split
  · rename_i hnone
    have hproperties : properties = .empty := Table.ext (List.isEmpty_iff.1 hnone)
    rw [hproperties, hempty]
    rfl
  · exact setAll_member put hl (readProperties_rows properties) value

theorem shallow_propertyMembers {m : String × Json} (h : m ∈ propertyMembers properties)
    (levels : Nat) : m.2.Shallow (levels + 1) := by
  unfold propertyMembers at h
  split at h
  · cases h
  · rw [List.mem_singleton.1 h]
    apply Json.shallow_object
    intro row hrow
    obtain ⟨property, -, rfl⟩ := List.mem_map.1 hrow
    rfl

end Declarations

namespace Profile

theorem layout : Layout fields ["id", "active", "properties"] ArtifactLists.names :=
  ⟨by decide, by decide, by decide⟩

/-- A profile is read back as it was written. -/
theorem ofJson_toJson (p : Profile) : ofJson p.toJson = .ok p := by
  obtain ⟨id, active, properties, artifacts⟩ := p
  have hhead : setAll fields ⟨"", false, {}⟩ [("id", .string id), ("active", .bool active)] =
      .ok ⟨id, active, {}⟩ := rfl
  have hproperties : setAll fields ⟨id, active, {}⟩ (Declarations.propertyMembers properties) =
      .ok ⟨id, active, { properties }⟩ :=
    Declarations.setAll_propertyMembers
      (fun properties (p : Profile) => { p with body.properties := properties }) rfl rfl _
  have hnames := (List.Sublist.refl ["id", "active"]).append
    (Declarations.names_propertyMembers properties)
  obtain ⟨filled, hread, hvalue, hothers⟩ := openRecord_object ["id"] layout
    (by simpa using hnames) artifacts.names_toMembers (by simp)
    ((setAll_append hhead).trans hproperties) fun m hm => ArtifactLists.isFit_toMembers hm
  have hlists := artifacts.ofMembers_toMembers
  rw [← hothers] at hlists
  refine exceptBind_eq_ok.2 ⟨filled, hread, exceptBind_eq_ok.2 ⟨artifacts, hlists, ?_⟩⟩
  rw [hvalue]
  rfl

theorem shallow_toJson (p : Profile) (levels : Nat) : p.toJson.Shallow (levels + 3) := by
  apply Json.shallow_object
  intro m hm
  rcases List.mem_append.1 hm with hm | hm
  · rcases List.mem_append.1 hm with hm | hm
    · rcases List.mem_cons.1 hm with rfl | hm
      · rfl
      · rw [List.mem_singleton.1 hm]
        rfl
    · exact Declarations.shallow_propertyMembers hm _
  · exact ArtifactLists.shallow_toMembers hm _

end Profile

namespace Module

variable {m : Module} {x : List Module}

/-- A module whose parent comes back from its own text. -/
def ParentReadable (m : Module) : Prop := ∀ i, m.parent = some i → i.Readable

theorem layout :
    Layout fields ["groupId", "artifactId", "version", "parent", "properties", "profiles"]
      ArtifactLists.names :=
  ⟨by decide, by decide, by decide⟩

theorem names_profileMembers (profiles : List Profile) :
    ((profileMembers profiles).map Prod.fst).Sublist ["profiles"] := by
  cases profiles <;> simp [profileMembers]

section Written

/-- The parent is read back if its text is. -/
theorem setAll_parent (hm : m.ParentReadable) (ident : Ident) (version : String) :
    setAll fields ⟨ident, version, none, {}, []⟩
      (Artifact.optionalMember "parent" (m.parent.map Ident.toString)) =
        .ok ⟨ident, version, m.parent, {}, []⟩ := by
  cases hp : m.parent with
  | none => rfl
  | some i =>
    have hident : Document.ident i.toString = .ok i := by
      rw [Document.ident, hm i hp]
    have hread : nullable (fun json => do Document.ident (← text json)) (.string i.toString) =
        .ok (some i) :=
      exceptBind_eq_ok.2 ⟨i, exceptBind_eq_ok.2 ⟨_, rfl, hident⟩, rfl⟩
    exact setAll_member (fun parent (m : Module) => { m with parent }) rfl hread _

theorem setAll_profiles (ident : Ident) (version : String) (parent : Option Ident)
    (main : Declarations) (profiles : List Profile) :
    setAll fields ⟨ident, version, parent, main, []⟩ (profileMembers profiles) =
      .ok ⟨ident, version, parent, main, profiles⟩ := by
  cases profiles with
  | nil => rfl
  | cons p profiles =>
    have hread : list Profile.ofJson (.array ((p :: profiles).map Profile.toJson)) =
        .ok (p :: profiles) := items_map fun q _ => q.ofJson_toJson
    exact setAll_member (fun profiles (m : Module) => { m with profiles }) rfl hread _

/-- A module is read back as it was written if its parent is. -/
theorem ofJson_toJson (hm : m.ParentReadable) : ofJson m.toJson = .ok m := by
  have hidents : setAll fields ⟨⟨"", ""⟩, "", none, {}, []⟩
      [("groupId", .string m.ident.group), ("artifactId", .string m.ident.artifact),
        ("version", .string m.version)] = .ok ⟨m.ident, m.version, none, {}, []⟩ := rfl
  have hproperties : setAll fields ⟨m.ident, m.version, m.parent, {}, []⟩
      (Declarations.propertyMembers m.main.properties) =
        .ok ⟨m.ident, m.version, m.parent, { properties := m.main.properties }, []⟩ :=
    Declarations.setAll_propertyMembers
      (fun properties (m : Module) => { m with main.properties := properties }) rfl rfl _
  have hset := (setAll_append ((setAll_append ((setAll_append hidents).trans
    (setAll_parent hm m.ident m.version))).trans hproperties)).trans
      (setAll_profiles m.ident m.version m.parent _ m.profiles)
  have hnames := (((List.Sublist.refl ["groupId", "artifactId", "version"]).append
    (Artifact.names_optionalMember "parent" (m.parent.map Ident.toString))).append
      (Declarations.names_propertyMembers m.main.properties)).append
        (names_profileMembers m.profiles)
  obtain ⟨filled, hread, hvalue, hothers⟩ := openRecord_object
    ["groupId", "artifactId", "version"] layout (by simpa using hnames)
    m.main.artifacts.names_toMembers (by simp) hset fun _ hm => ArtifactLists.isFit_toMembers hm
  have hlists := m.main.artifacts.ofMembers_toMembers
  rw [← hothers] at hlists
  refine exceptBind_eq_ok.2 ⟨filled, hread, exceptBind_eq_ok.2 ⟨_, hlists, ?_⟩⟩
  rw [hvalue]
  rfl

theorem shallow_toJson (m : Module) (levels : Nat) : m.toJson.Shallow (levels + 5) := by
  apply Json.shallow_object
  intro row hrow
  simp only [List.mem_append] at hrow
  rcases hrow with (((hrow | hrow) | hrow) | hrow) | hrow
  · have htext : ∃ value, row.2 = .string value := by
      simp only [List.mem_cons, List.not_mem_nil, or_false] at hrow
      rcases hrow with rfl | rfl | rfl <;> exact ⟨_, rfl⟩
    obtain ⟨value, hvalue⟩ := htext
    rw [hvalue]
    rfl
  · obtain ⟨value, hvalue⟩ := Artifact.mem_optionalMember hrow
    rw [hvalue]
    rfl
  · exact Declarations.shallow_propertyMembers hrow _
  · cases hp : m.profiles with
    | nil =>
      rw [hp] at hrow
      cases hrow
    | cons p profiles =>
      rw [hp] at hrow
      rw [List.mem_singleton.1 hrow]
      apply Json.shallow_array
      intro json hjson
      obtain ⟨q, -, rfl⟩ := List.mem_map.1 hjson
      exact q.shallow_toJson levels
  · exact ArtifactLists.shallow_toMembers hrow _

/-- Modules are read back as they were written if their parents are. -/
theorem root_listToJson (h : ∀ m ∈ x, m.ParentReadable) :
    root listOfJson (listToJson x) = .ok x := by
  have hshallow : (listToJson x).Shallow deepestLevel := by
    apply Json.shallow_array
    intro json hjson
    obtain ⟨m, -, rfl⟩ := List.mem_map.1 hjson
    exact m.shallow_toJson 121
  rw [root, hshallow]
  exact items_map fun m hm => ofJson_toJson (h m hm)

end Written

section Accepted

/-- No member of a module but its parent touches the parent, and that is read from a text. -/
theorem parentReadable_of_field (h : m.ParentReadable) {json : Json} {m' : Module}
    {field : String × (Json → Module → Result Module)} (hfield : field ∈ fields)
    (hset : field.2 json m = .ok m') : m'.ParentReadable := by
  simp only [fields, List.mem_cons, List.not_mem_nil, or_false] at hfield
  rcases hfield with rfl | rfl | rfl | rfl | rfl | rfl
  -- the parent, the fourth member, is the only one that reads an identity
  case inr.inr.inr.inl =>
    obtain ⟨parent, hparent, hset⟩ := exceptBind_eq_ok.1 hset
    cases hset
    intro i hi
    obtain rfl : parent = some i := hi
    cases json with
    | null => cases hparent
    | string content =>
      obtain ⟨i', hi', hparent⟩ := exceptBind_eq_ok.1 hparent
      cases hparent
      obtain ⟨_, htext, hident⟩ := exceptBind_eq_ok.1 hi'
      cases htext
      exact Ident.readable_of_parse (Ident.parse_of_document hident)
    | _ => cases hparent
  all_goals
    obtain ⟨_, -, hset⟩ := exceptBind_eq_ok.1 hset
    cases hset
    exact h

/-- The parent of a module that is read from a document comes from a text. -/
theorem parentReadable_of_ofJson {json : Json} (h : ofJson json = .ok m) : m.ParentReadable := by
  obtain ⟨filled, hfilled, h⟩ := exceptBind_eq_ok.1 h
  obtain ⟨artifacts, -, h⟩ := exceptBind_eq_ok.1 h
  cases h
  have hparent : ParentReadable filled.value := by
    apply openRecord_invariant (P := ParentReadable) _ hfilled
    · intro i hi
      cases hi
    · intro field hfield json v w hv hset
      exact parentReadable_of_field hv hfield hset
  exact hparent

theorem parentReadable_of_listOfJson {json : Json} (h : listOfJson json = .ok x) :
    ∀ m ∈ x, m.ParentReadable := by
  intro m hm
  obtain ⟨item, hitem⟩ := exists_of_list h hm
  exact parentReadable_of_ofJson hitem

/-- A pass gives no module another parent. -/
theorem parentReadable_run (plan : Alignment.Plan) {F : Forest}
    (h : ∀ m ∈ F.modules, m.ParentReadable) :
    ∀ m ∈ (Alignment.run plan F).1.forest.modules, m.ParentReadable := by
  intro m hm
  obtain ⟨m', hm', he⟩ := Forest.exists_module_of_links (Alignment.framed_run plan F).links hm
  have hparent : m'.parent = m.parent := congrArg Link.parent he
  intro i hi
  exact h m' hm' i (hparent.trans hi)

/-- Modules that come from a document are read back from the one that they are written to, and so
are the modules that any pass over them leaves. -/
theorem reload (json : Json) (x : List Module) (h : listOfJson json = .ok x) :
    root listOfJson (listToJson x) = .ok x ∧
      ∀ (plan : Alignment.Plan) (F : Forest), Forest.ofModules x = .ok F →
        root listOfJson (listToJson (Alignment.run plan F).1.forest.modules) =
          .ok (Alignment.run plan F).1.forest.modules := by
  have hx := parentReadable_of_listOfJson h
  refine ⟨root_listToJson hx, fun plan F hF => root_listToJson (parentReadable_run plan ?_)⟩
  rwa [Forest.modules_of_ofModules hF]

/-- A document with a parent between blanks, members out of order and a repeated property. -/
def looseDocument : Json :=
  .array [.object [
    ("profiles", .array [.object [("properties", .object [("alias", .string "$\x7bbase\x7d")]),
      ("id", .string "product"), ("active", .bool true)]]),
    ("plugins", .array [.array [.string "org.dep", .string "a", .string "$\x7balias\x7d", .null]]),
    ("dependencies", .array []),
    ("properties", .object [("base", .string "0.9"), ("other", .string ""),
      ("base", .string "1.0")]),
    ("parent", .string " org.foo:root "), ("version", .string "1.0"),
    ("artifactId", .string "app"), ("groupId", .string "org.foo")]]

def looseModule : Module where
  ident := ⟨"org.foo", "app"⟩
  version := "1.0"
  parent := some ⟨"org.foo", "root"⟩
  main.properties := .ofRows [("base", "1.0"), ("other", "")]
  main.artifacts.plugins := [{ ident := ⟨"org.dep", "a"⟩, version := some "$\x7balias\x7d" }]
  profiles := [{
    id := "product", active := true
    body.properties := .ofRows [("alias", "$\x7bbase\x7d")] }]

def looseForest : Forest where
  modules := [looseModule]
  grounded := ⟨by decide, by decide⟩

def raisingPlan : Alignment.Plan where
  policy := {}
  targets.versions := .ofRows [(⟨"org.dep", "a"⟩, "1.1")]
  relocations := .empty

theorem looseDocument_reload :
    root listOfJson (listToJson [looseModule]) = .ok [looseModule] ∧
      root listOfJson (listToJson (Alignment.run raisingPlan looseForest).1.forest.modules) =
        .ok (Alignment.run raisingPlan looseForest).1.forest.modules :=
  (reload looseDocument [looseModule] (by decide +kernel)).imp_right
    fun hpass => hpass raisingPlan looseForest rfl

end Accepted

end Module

end Realign
