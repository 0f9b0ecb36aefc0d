import Conform.Proofs.Advance

namespace Conform

variable {ω : Type}

namespace TypeExpr

/-- A type names another one, at any depth and also in what an `attrs` is said to be. -/
inductive Names : TypeExpr → String → Prop
  | reference (name : String) : Names (.reference name) name
  | element {element : TypeExpr} {name : String} : Names element name → Names (.array element) name
  | member {member : TypeExpr} {members : List TypeExpr} {name : String} (listed : member ∈ members) :
      Names member name → Names (.union members) name
  | prop {p : Property TypeExpr} {props : List (Property TypeExpr)} {name : String} (listed : p ∈ props) :
      Names p.type name → Names (.literal props) name
  | generic {argument : TypeExpr} {name : String} (tag : String) :
      Names argument name → Names (.generic tag argument) name
  | parameterized {argument : TypeExpr} {name : String} (tag : String) :
      Names argument name → Names (.parameterized tag argument) name

/-- A literal inside the type says of its `attrs` what names the other type. -/
def Hides (type : TypeExpr) (name : String) : Prop :=
  ∃ props, (literal props).Inside type ∧ ∃ p ∈ props, p.isAttrs = true ∧ p.type.Names name

section Collect

variable {name : String} {known : List String}

theorem mem_collectFromMembers {members : List TypeExpr}
    (each : ∀ member ∈ members, ∀ known, name ∈ member.collectReferences known ↔ name ∈ known ∨ member.Names name) :
    name ∈ collectFromMembers members known ↔ name ∈ known ∨ ∃ member ∈ members, member.Names name := by
  induction members generalizing known with
  | nil => simp [collectFromMembers]
  | cons member rest ih =>
    obtain ⟨first, others⟩ := List.forall_mem_cons.mp each
    rw [collectFromMembers, ih others, first, List.exists_mem_cons_iff, or_assoc]

/-- What is collected from properties is what was known and what they name, the reserved one of them
included. -/
theorem mem_collectFromProps {props : List (Property TypeExpr)}
    (each : ∀ p ∈ props, ∀ known, name ∈ p.type.collectReferences known ↔ name ∈ known ∨ p.type.Names name) :
    name ∈ collectFromProps props known ↔ name ∈ known ∨ ∃ p ∈ props, p.type.Names name := by
  induction props generalizing known with
  | nil => simp [collectFromProps]
  | cons p rest ih =>
    obtain ⟨first, others⟩ := List.forall_mem_cons.mp each
    rw [collectFromProps, ih others, first, List.exists_mem_cons_iff, or_assoc]

/-- What is collected from a type is what it names. -/
theorem mem_collectReferences (type : TypeExpr) (name : String) (known : List String) :
    name ∈ type.collectReferences known ↔ name ∈ known ∨ type.Names name := by
  induction type using TypeExpr.induction generalizing known with
  | scalar kind =>
    rw [collectReferences]
    exact (or_iff_left (fun names => nomatch names)).symm
  | reference other =>
    have itself : (reference other).Names name ↔ name = other := by
      constructor
      · rintro ⟨⟩
        rfl
      · rintro rfl
        exact .reference name
    rw [collectReferences, itself]
    split
    · rename_i listed
      exact ⟨Or.inl, fun found => found.elim id fun same => same ▸ listed⟩
    · rw [List.mem_append, List.mem_singleton]
  | array element ih =>
    have inner : (array element).Names name ↔ element.Names name := ⟨fun | .element names => names, .element⟩
    rw [collectReferences, ih, inner]
  | union members ih =>
    have inner : (union members).Names name ↔ ∃ member ∈ members, member.Names name :=
      ⟨fun | .member listed names => ⟨_, listed, names⟩, fun ⟨_, listed, names⟩ => .member listed names⟩
    rw [collectReferences, mem_collectFromMembers ih, inner]
  | literal props ih =>
    have inner : (literal props).Names name ↔ ∃ p ∈ props, p.type.Names name :=
      ⟨fun | .prop listed names => ⟨_, listed, names⟩, fun ⟨_, listed, names⟩ => .prop listed names⟩
    rw [collectReferences, mem_collectFromProps ih, inner]
  | generic tag argument ih =>
    have inner : (generic tag argument).Names name ↔ argument.Names name := ⟨fun | .generic _ names => names, .generic tag⟩
    rw [collectReferences, ih, inner]
  | parameterized tag argument ih =>
    have inner : (parameterized tag argument).Names name ↔ argument.Names name :=
      ⟨fun | .parameterized _ names => names, .parameterized tag⟩
    rw [collectReferences, ih, inner]

theorem nodup_collectFromMembers {members : List TypeExpr}
    (each : ∀ member ∈ members, ∀ known, known.Nodup → (member.collectReferences known).Nodup) (nodup : known.Nodup) :
    (collectFromMembers members known).Nodup := by
  induction members generalizing known with
  | nil => exact nodup
  | cons member rest ih =>
    obtain ⟨first, others⟩ := List.forall_mem_cons.mp each
    exact ih others (first known nodup)

theorem nodup_collectFromProps {props : List (Property TypeExpr)}
    (each : ∀ p ∈ props, ∀ known, known.Nodup → (p.type.collectReferences known).Nodup) (nodup : known.Nodup) :
    (collectFromProps props known).Nodup := by
  induction props generalizing known with
  | nil => exact nodup
  | cons p rest ih =>
    obtain ⟨first, others⟩ := List.forall_mem_cons.mp each
    exact ih others (first known nodup)

/-- A name is collected once: by induction on the type. -/
theorem nodup_collectReferences (type : TypeExpr) {known : List String} (nodup : known.Nodup) :
    (type.collectReferences known).Nodup := by
  induction type using TypeExpr.induction generalizing known with
  | scalar kind => exact nodup
  | reference other =>
    rw [collectReferences]
    split
    · exact nodup
    · rename_i new
      exact List.nodup_append.mpr ⟨nodup, List.nodup_singleton other, fun a listed b last => by
        rintro rfl
        exact new (List.mem_singleton.mp last ▸ listed)⟩
  | array element ih => exact ih nodup
  | union members ih => exact nodup_collectFromMembers (fun member listed known => ih member listed) nodup
  | literal props ih => exact nodup_collectFromProps (fun p listed known => ih p listed) nodup
  | generic tag argument ih | parameterized tag argument ih => exact ih nodup

end Collect

theorem Inside.trans {part middle whole : TypeExpr} (first : part.Inside middle) (second : middle.Inside whole) :
    part.Inside whole := by
  induction second with
  | self => exact first
  | element _ ih => exact .element ih
  | member listed _ ih => exact .member listed ih
  | prop listed declared _ ih => exact .prop listed declared ih
  | generic tag _ ih => exact .generic tag ih
  | parameterized tag _ ih => exact .parameterized tag ih

theorem Names.of_inside {part whole : TypeExpr} {name : String} (inside : part.Inside whole) (names : part.Names name) :
    whole.Names name := by
  induction inside with
  | self => exact names
  | element _ ih => exact .element ih
  | member listed _ ih => exact .member listed ih
  | prop listed _ _ ih => exact .prop listed ih
  | generic tag _ ih => exact .generic tag ih
  | parameterized tag _ ih => exact .parameterized tag ih

theorem Hides.of_inside {part whole : TypeExpr} {name : String} (inside : part.Inside whole) (hides : part.Hides name) :
    whole.Hides name := by
  obtain ⟨props, within, rest⟩ := hides
  exact ⟨props, within.trans inside, rest⟩

/-- What a type names it refers to, unless it only says so of an `attrs` inside. -/
theorem names_iff {type : TypeExpr} {name : String} : type.Names name ↔ type.Mentions name ∨ type.Hides name := by
  constructor
  · intro names
    have pass {part whole : TypeExpr} (inside : part.Inside whole) (found : part.Mentions name ∨ part.Hides name) :
        whole.Mentions name ∨ whole.Hides name :=
      found.imp (fun mentions => mentions.trans inside) (Hides.of_inside inside)
    induction names with
    | reference name => exact Or.inl (.self _)
    | element _ ih => exact pass (.element (.self _)) (ih pass)
    | member listed _ ih => exact pass (.member listed (.self _)) (ih pass)
    | @prop p props name listed names ih =>
      cases declared : p.isAttrs with
      | false => exact pass (.prop listed declared (.self _)) (ih pass)
      | true => exact Or.inr ⟨props, .self _, p, listed, declared, names⟩
    | generic tag _ ih => exact pass (.generic tag (.self _)) (ih pass)
    | parameterized tag _ ih => exact pass (.parameterized tag (.self _)) (ih pass)
  · rintro (mentions | ⟨props, inside, p, listed, _, names⟩)
    · exact .of_inside mentions (.reference name)
    · exact .of_inside inside (.prop listed names)

end TypeExpr

/-- The scope in which one name is not known. -/
def Scope.without (scope : Scope ω) (name : String) : Scope ω where
  resolve other := if other = name then .error (.unknownType name) else scope.resolve other
  factory := scope.factory

theorem Scope.knows_without_iff {scope : Scope ω} {name other : String} :
    (scope.without name).Knows other ↔ other ≠ name ∧ scope.Knows other := by
  unfold Knows
  simp only [without]
  by_cases same : other = name <;> simp [same]

namespace Schema

/-- A schema names another type in a property other than its own `attrs`. -/
def Names (s : Schema) (name : String) : Prop := ∃ p ∈ s.props, p.isAttrs = false ∧ p.type.Names name

/-- A literal somewhere in a schema says of its `attrs` what names the other type. -/
def Hides (s : Schema) (name : String) : Prop := ∃ p ∈ s.props, p.isAttrs = false ∧ p.type.Hides name

/-- A schema that stands for a shape asks for a name: where the name is not known, it stands for none. -/
def LooksUp (s : Schema) (scope : Scope ω) (name : String) : Prop :=
  ∀ shape, s.elaborate (scope.without name) ≠ .ok shape

variable {s : Schema} {name : String}

theorem mentions_iff : s.Mentions name ↔ ∃ p ∈ s.props, p.isAttrs = false ∧ p.type.Mentions name :=
  ⟨fun | .prop listed declared mentions => ⟨_, listed, declared, mentions⟩,
    fun ⟨_, listed, declared, mentions⟩ => .prop listed declared mentions⟩

theorem names_iff : s.Names name ↔ s.Mentions name ∨ s.Hides name := by
  simp only [Names, Hides, mentions_iff, TypeExpr.names_iff, and_or_left, exists_or]

theorem mem_references_iff : name ∈ s.references ↔ s.Mentions name ∨ s.Hides name := by
  rw [references, TypeExpr.mem_collectFromProps fun p _ => p.type.mem_collectReferences name, ← names_iff]
  simp [Names, and_assoc]

theorem nodup_references (s : Schema) : s.references.Nodup :=
  TypeExpr.nodup_collectFromProps (fun p _ _ => p.type.nodup_collectReferences) List.nodup_nil

/-- A schema is sound when it is sound but for its names, and they are known. -/
theorem sound_iff {known made : String → Prop} :
    s.Sound known made ↔ s.Sound (fun _ => True) made ∧ ∀ name, s.Mentions name → known name := by
  constructor
  · intro sound
    exact ⟨TypeExpr.Sound.mono sound fun _ _ => trivial, fun name mentions => sound (.reference name) mentions⟩
  · rintro ⟨sound, each⟩
    exact TypeExpr.Sound.restrict sound each

/-- A schema asks for just the names that it mentions. -/
theorem looksUp_iff {scope : Scope ω} {shape : Shape ω} (elaborated : s.elaborate scope = .ok shape) :
    s.LooksUp scope name ↔ s.Mentions name := by
  have sound := s.elaborate_ok_iff_sound.mp ⟨shape, elaborated⟩
  obtain ⟨otherwise, known⟩ := sound_iff.mp sound
  constructor
  · intro asks
    by_contra unmentioned
    have still : s.Sound (scope.without name).Knows (scope.without name).Makes := by
      refine sound_iff.mpr ⟨otherwise, fun other mentions => Scope.knows_without_iff.mpr ⟨?_, known other mentions⟩⟩
      rintro rfl
      exact unmentioned mentions
    obtain ⟨other, elaboratedToo⟩ := s.elaborate_ok_iff_sound.mpr still
    exact asks other elaboratedToo
  · intro mentions other elaboratedToo
    have soundToo := s.elaborate_ok_iff_sound.mp ⟨other, elaboratedToo⟩
    exact (Scope.knows_without_iff.mp (soundToo (.reference name) mentions)).1 rfl

end Schema

namespace Registry

variable {r other : Registry ω}

theorem contains_iff {name : String} : r.contains name = true ↔ r.scope.Knows name := by
  rw [knows_iff, contains, decide_eq_true_iff, state?]
  cases r.slot? name with
  | none => simp
  | some slot => cases slot <;> simp [Slot.state]

/-- A schema with nothing else wrong is registered where every name that it mentions is. -/
theorem register_schema_ok_iff {s : Schema} (otherwise : s.Sound (fun _ => True) r.scope.Makes) (free : r.Free s.name) :
    (r.register (.schema s)).2 = .ok () ↔ ∀ name, s.Mentions name → r.contains name = true := by
  rw [register_ok_iff_fits, Fits, Schema.sound_iff]
  simp only [contains_iff]
  exact ⟨fun ⟨_, _, known⟩ => known, fun known => ⟨free, otherwise, known⟩⟩

/-- A schema is registered alike in two registries that hold the same under its own name and under those that it
names. -/
theorem registerSchema_congr {s : Schema} (named : ∀ name ∈ s.references, other.slot? name = r.slot? name)
    (own : other.slot? s.name = r.slot? s.name) (factories : other.factories = r.factories) :
    (other.registerSchema s).2 = (r.registerSchema s).2 := by
  have elaborated : s.elaborate (other.setSlot s.name .resolving).scope =
      s.elaborate (r.setSlot s.name .resolving).scope := by
    refine s.elaborate_congr (fun name mentions => ?_) (fun tag => ?_)
    · have same := named name (Schema.mem_references_iff.mpr (Or.inl mentions))
      simp only [scope, resolve, slot?_setSlot, same]
    · simp only [scope, factory, setSlot, factories]
  have started : other.start s.name = .error (.duplicateName s.name) ∧ r.start s.name = .error (.duplicateName s.name) ∨
      ∃ wasPending, other.start s.name = .ok (other.setSlot s.name .resolving, wasPending) ∧
        r.start s.name = .ok (r.setSlot s.name .resolving, wasPending) := by
    unfold Registry.start
    rw [own]
    cases r.slot? s.name with
    | none => exact Or.inr ⟨false, rfl, rfl⟩
    | some slot => cases slot with
      | pending => exact Or.inr ⟨true, rfl, rfl⟩
      | resolving | resolved shape attrs => exact Or.inl ⟨rfl, rfl⟩
  rcases started with ⟨there, here⟩ | ⟨wasPending, there, here⟩
  · simp only [registerSchema, there, here]
  · simp only [registerSchema, there, here, elaborated]
    split <;> rfl

end Registry

namespace Schema

/-- The references of a schema hold, each once, every name that it asks for where it stands for a shape, and those
alone exactly if it mentions whatever a literal inside it says of an `attrs`. Where nothing else is wrong, it is
registered once all of its references are, and they are needed exactly if registering what it mentions registers
what it hides. No other name plays a part. -/
theorem references_exact_iff (s : Schema) :
    s.references.Nodup ∧
    (∀ (scope : Scope ω) (shape : Shape ω), s.elaborate scope = .ok shape →
      (∀ name, s.LooksUp scope name → name ∈ s.references) ∧
      ((∀ name, name ∈ s.references ↔ s.LooksUp scope name) ↔ ∀ name, s.Hides name → s.Mentions name)) ∧
    (∀ r : Registry ω, s.Sound (fun _ => True) r.scope.Makes → r.Free s.name →
      ((∀ name ∈ s.references, r.contains name = true) → (r.register (.schema s)).2 = .ok ()) ∧
      (((r.register (.schema s)).2 = .ok () → ∀ name ∈ s.references, r.contains name = true) ↔
        ((∀ name, s.Mentions name → r.contains name = true) → ∀ name, s.Hides name → r.contains name = true))) ∧
    ∀ r other : Registry ω, (∀ name ∈ s.references, other.slot? name = r.slot? name) →
      other.slot? s.name = r.slot? s.name → other.factories = r.factories →
      (other.registerSchema s).2 = (r.registerSchema s).2 := by
  refine ⟨s.nodup_references, fun scope shape elaborated => ?_, fun r otherwise free => ?_,
    fun r other named own factories => Registry.registerSchema_congr named own factories⟩
  · have asks (name : String) : s.LooksUp scope name ↔ s.Mentions name := looksUp_iff elaborated
    refine ⟨fun name looked => mem_references_iff.mpr (Or.inl ((asks name).mp looked)), ?_⟩
    simp only [mem_references_iff, asks, or_iff_left_iff_imp]
  · simp only [Registry.register_schema_ok_iff otherwise free, mem_references_iff, or_imp, forall_and]
    exact ⟨And.left, and_iff_right id⟩

section Badge

/-- A schema that names an icon in the `attrs` of its face alone. -/
def badgeSchema : Schema :=
  ⟨"Badge", [⟨"face", .literal [⟨"text", .scalar .string, false⟩, ⟨attrsKey, .reference "Icon", false⟩], false⟩]⟩

/-- A schema that names the icon in a property too. -/
def medalSchema : Schema := ⟨"Medal", ⟨"icon", .reference "Icon", true⟩ :: badgeSchema.props⟩

def iconSchema : Schema := ⟨"Icon", [⟨"url", .scalar .string, false⟩]⟩

def iconRegistry : Registry Empty := (Registry.empty.register (.schema iconSchema)).1

theorem references_exact_iff_medal : ∃ shape : Shape Empty,
    medalSchema.elaborate iconRegistry.scope = .ok shape ∧ medalSchema.references = ["Icon"] ∧
    (∀ name, name ∈ medalSchema.references ↔ medalSchema.LooksUp iconRegistry.scope name) ∧
    medalSchema.Sound (fun _ => True) iconRegistry.scope.Makes ∧ iconRegistry.Free "Medal" ∧
    (∀ name ∈ medalSchema.references, iconRegistry.contains name = true) ∧
    (iconRegistry.register (.schema medalSchema)).2 = .ok () := by
  obtain ⟨_, exact, needed, _⟩ := @references_exact_iff Empty medalSchema
  have elaborated : medalSchema.elaborate iconRegistry.scope = .ok _ := rfl
  have listed : medalSchema.references = ["Icon"] := rfl
  have mentions : medalSchema.Mentions "Icon" := mentions_iff.mpr ⟨_, List.mem_cons_self, rfl, .self _⟩
  have hidden : ∀ name, medalSchema.Hides name → medalSchema.Mentions name := by
    intro name hides
    have isListed : name ∈ medalSchema.references := mem_references_iff.mpr (Or.inr hides)
    rw [listed, List.mem_singleton] at isListed
    exact isListed ▸ mentions
  have sound : medalSchema.Sound (fun _ => True) iconRegistry.scope.Makes :=
    (sound_iff.mp (medalSchema.elaborate_ok_iff_sound.mp ⟨_, elaborated⟩)).1
  have free : iconRegistry.Free "Medal" := Or.inr rfl
  have registered : ∀ name ∈ medalSchema.references, iconRegistry.contains name = true := by
    rw [listed]
    exact List.forall_mem_singleton.mpr rfl
  exact ⟨_, elaborated, listed, (exact _ _ elaborated).2.mpr hidden, sound, free, registered,
    (needed _ sound free).1 registered⟩

/-- A schema is registered without the icon that only an `attrs` inside it names, and the icon is among its
references. -/
theorem badge_references_too_many :
    badgeSchema.references = ["Icon"] ∧ ((Registry.empty : Registry Empty).register (.schema badgeSchema)).2 = .ok () ∧
    (Registry.empty : Registry Empty).contains "Icon" = false ∧
    ¬∀ name, name ∈ badgeSchema.references ↔ badgeSchema.LooksUp (Registry.empty : Registry Empty).scope name := by
  refine ⟨rfl, rfl, rfl, fun exact => ?_⟩
  have asked : badgeSchema.LooksUp (Registry.empty : Registry Empty).scope "Icon" :=
    (exact "Icon").mp (List.mem_singleton.mpr rfl)
  exact asked _ rfl

end Badge

end Schema

end Conform
