import Conform.CommandLine.Documents

namespace Conform.CommandLine

/-- A list holds all that comes from some places, once for each place and in the order of the places. -/
def Lists {ι α : Type} (before : ι → ι → Prop) (comes : ι → α → Prop) (items : List α) : Prop :=
  ∃ placed : List (ι × α), placed.map Prod.snd = items ∧ (placed.Pairwise fun a b => before a.1 b.1) ∧
    ∀ place a, (place, a) ∈ placed ↔ comes place a

namespace Lists

variable {ι κ α β : Type} {before : ι → ι → Prop} {before' : κ → κ → Prop} {comes : ι → α → Prop} {items : List α}

theorem nil (none : ∀ place a, ¬comes place a) : Lists before comes [] :=
  ⟨[], rfl, .nil, fun place a => iff_of_false List.not_mem_nil (none place a)⟩

theorem single (place : ι) {a : α} (only : ∀ other b, comes other b ↔ other = place ∧ b = a) :
    Lists before comes [a] := by
  refine ⟨[(place, a)], rfl, List.pairwise_singleton .., fun other b => ?_⟩
  rw [List.mem_singleton, Prod.mk.injEq, only]

theorem congr {comes' : ι → α → Prop} (same : ∀ place a, comes place a ↔ comes' place a)
    (lists : Lists before comes items) : Lists before comes' items := by
  obtain ⟨placed, values, ordered, members⟩ := lists
  exact ⟨placed, values, ordered, fun place a => (members place a).trans (same place a)⟩

/-- Places may be named otherwise where their order stays. -/
theorem rename {comes' : κ → α → Prop} (name : ι → κ) (ordered : ∀ {i j}, before i j → before' (name i) (name j))
    (same : ∀ place a, comes' place a ↔ ∃ i, name i = place ∧ comes i a) (lists : Lists before comes items) :
    Lists before' comes' items := by
  obtain ⟨placed, rfl, inOrder, members⟩ := lists
  refine ⟨placed.map (Prod.map name id), ?_, List.pairwise_map.mpr (inOrder.imp ordered), fun place a => ?_⟩
  · rw [List.map_map]
    rfl
  · rw [same, List.mem_map]
    constructor
    · rintro ⟨⟨i, b⟩, member, named⟩
      cases named
      exact ⟨i, rfl, (members i b).mp member⟩
    · rintro ⟨i, rfl, there⟩
      exact ⟨(i, a), (members i a).mpr there, rfl⟩

theorem pairwise_snd_zipIdx (items : List α) (number : Nat) :
    (items.zipIdx number).Pairwise fun a b => a.2 < b.2 := by
  induction items generalizing number with
  | nil => exact .nil
  | cons first rest ih =>
    refine List.pairwise_cons.mpr ⟨fun later member => ?_, ih (number + 1)⟩
    exact List.le_snd_of_mem_zipIdx member

/-- Numbered items come in the order of their numbers. -/
theorem numbered (items : List α) (number : Nat) :
    Lists (· < ·) (fun place entry => entry ∈ items.zipIdx number ∧ entry.2 = place) (items.zipIdx number) := by
  refine ⟨(items.zipIdx number).map fun entry => (entry.2, entry), ?_, ?_, fun place entry => ?_⟩
  · rw [List.map_map]
    exact List.map_id _
  · exact List.pairwise_map.mpr (pairwise_snd_zipIdx items number)
  · rw [List.mem_map]
    constructor
    · rintro ⟨other, member, made⟩
      cases made
      exact ⟨member, rfl⟩
    · rintro ⟨member, rfl⟩
      exact ⟨entry, member, rfl⟩

theorem filter (keep : α → Bool) (lists : Lists before comes items) :
    Lists before (fun place a => comes place a ∧ keep a = true) (items.filter keep) := by
  obtain ⟨placed, rfl, ordered, members⟩ := lists
  refine ⟨placed.filter (keep ·.2), List.filter_map.symm, ordered.filter _, fun place a => ?_⟩
  rw [List.mem_filter, members]

theorem map (make : α → β) (lists : Lists before comes items) :
    Lists before (fun place b => ∃ a, comes place a ∧ make a = b) (items.map make) := by
  obtain ⟨placed, rfl, ordered, members⟩ := lists
  refine ⟨placed.map (Prod.map id make), ?_, List.pairwise_map.mpr ordered, fun place b => ?_⟩
  · rw [List.map_map, List.map_map]
    rfl
  · rw [List.mem_map]
    constructor
    · rintro ⟨⟨i, a⟩, member, made⟩
      cases made
      exact ⟨a, (members i a).mp member, rfl⟩
    · rintro ⟨a, there, rfl⟩
      exact ⟨(place, a), (members place a).mpr there, rfl⟩

/-- What comes from one place goes before what comes from later places. -/
theorem ahead {place : ι} {comesHere : κ → β → Prop} {comesLater : ι × κ → β → Prop} {here later : List β}
    (first : Lists before' comesHere here) (rest : Lists (Prod.Lex before before') comesLater later)
    (behind : ∀ q b, comesLater q b → before place q.1) :
    Lists (Prod.Lex before before') (fun q b => (q.1 = place ∧ comesHere q.2 b) ∨ comesLater q b) (here ++ later) := by
  obtain ⟨placedHere, rfl, orderedHere, membersHere⟩ := first
  obtain ⟨placedLater, rfl, orderedLater, membersLater⟩ := rest
  refine ⟨(placedHere.map fun entry => ((place, entry.1), entry.2)) ++ placedLater, ?_, ?_, fun q b => ?_⟩
  · rw [List.map_append, List.map_map]
    rfl
  · refine List.pairwise_append.mpr ⟨?_, orderedLater, ?_⟩
    · exact List.pairwise_map.mpr (orderedHere.imp fun earlier => .right place earlier)
    · intro entry member other memberToo
      obtain ⟨⟨j, b⟩, _, rfl⟩ := List.mem_map.mp member
      exact .left _ _ (behind other.1 other.2 ((membersLater other.1 other.2).mp memberToo))
  · rw [List.mem_append, membersLater, List.mem_map]
    refine or_congr_left ⟨?_, ?_⟩
    · rintro ⟨⟨j, b'⟩, member, made⟩
      cases made
      exact ⟨rfl, (membersHere j b').mp member⟩
    · rintro ⟨rfl, there⟩
      exact ⟨(q.2, b), (membersHere q.2 b).mpr there, rfl⟩

end Lists

/-- What a reading comes to: a failure with a cause, or, where nothing is amiss, all that comes from its places. -/
inductive Settles {ι β : Type} (fails : CommandError → Prop) (before : ι → ι → Prop) (comes : ι → β → Prop) :
    Except CommandError (List β) → Prop
  | failed {e : CommandError} (cause : fails e) : Settles fails before comes (.error e)
  | listed {out : List β} (sound : ∀ e, ¬fails e) (lists : Lists before comes out) :
      Settles fails before comes (.ok out)

namespace Settles

variable {ι κ α β : Type} {before : ι → ι → Prop} {before' : κ → κ → Prop} {comes : ι → α → Prop}
  {comesOf : α → κ → β → Prop} {fails : CommandError → Prop} {failsOf : α → CommandError → Prop}
  {load : α → Except CommandError (List β)} {items : List α}

theorem congr {comes' : ι → α → Prop} {fails' : CommandError → Prop} {result : Except CommandError (List α)}
    (settles : Settles fails before comes result) (sameFailures : ∀ e, fails e ↔ fails' e)
    (same : ∀ place a, comes place a ↔ comes' place a) : Settles fails' before comes' result := by
  cases settles with
  | failed cause => exact .failed ((sameFailures _).mp cause)
  | listed sound lists => exact .listed (fun e cause => sound e ((sameFailures e).mpr cause)) (lists.congr same)

/-- Documents settle under other names for their places when the order is the same. -/
theorem rename {comes' : κ → α → Prop} {result : Except CommandError (List α)}
    (settles : Settles fails before comes result) (name : ι → κ)
    (ordered : ∀ {i j}, before i j → before' (name i) (name j))
    (same : ∀ place a, comes' place a ↔ ∃ i, name i = place ∧ comes i a) : Settles fails before' comes' result := by
  cases settles with
  | failed cause => exact .failed cause
  | listed sound lists => exact .listed sound (lists.rename name ordered same)

/-- Loading one item after the other settles by the place of the item first: by induction on the
items. -/
theorem each_placed {placed : List (ι × α)} (ordered : placed.Pairwise fun a b => before a.1 b.1)
    (each : ∀ entry ∈ placed, Settles (failsOf entry.2) before' (comesOf entry.2) (load entry.2)) :
    Settles (fun e => ∃ entry ∈ placed, failsOf entry.2 e) (Prod.Lex before before')
      (fun q b => ∃ a, (q.1, a) ∈ placed ∧ comesOf a q.2 b) (eachDocument load (placed.map Prod.snd)) := by
  induction placed with
  | nil => exact .listed (by simp) (Lists.nil (by simp))
  | cons entry rest ih =>
    obtain ⟨behind, orderedRest⟩ := List.pairwise_cons.mp ordered
    obtain ⟨here, later⟩ := List.forall_mem_cons.mp each
    have settled := ih orderedRest later
    rw [List.map_cons, eachDocument]
    generalize load entry.2 = first at here
    generalize eachDocument load (rest.map Prod.snd) = others at settled
    -- An item that fails ends the loading; otherwise its documents come ahead of those behind it.
    cases here with
    | failed cause => exact .failed ⟨entry, List.mem_cons_self, cause⟩
    | listed sound lists => cases settled with
      | failed cause =>
        obtain ⟨other, member, cause⟩ := cause
        exact .failed ⟨other, List.mem_cons_of_mem _ member, cause⟩
      | listed soundLater listsLater =>
        have ahead : ∀ (q : ι × κ) (b : β), (∃ a, (q.1, a) ∈ rest ∧ comesOf a q.2 b) → before entry.1 q.1 := by
          rintro q b ⟨a, member, _⟩
          exact behind (q.1, a) member
        refine .listed ?_ ((lists.ahead listsLater ahead).congr fun q b => ?_)
        · rintro e ⟨other, member, cause⟩
          rcases List.mem_cons.mp member with rfl | inRest
          · exact sound e cause
          · exact soundLater e ⟨other, inRest, cause⟩
        · constructor
          · rintro (⟨same, there⟩ | ⟨a, member, there⟩)
            · exact ⟨entry.2, same ▸ List.mem_cons_self, there⟩
            · exact ⟨a, List.mem_cons_of_mem _ member, there⟩
          · rintro ⟨a, member, there⟩
            rcases List.mem_cons.mp member with rfl | inRest
            · exact .inl ⟨rfl, there⟩
            · exact .inr ⟨a, inRest, there⟩

/-- Where each item of a list settles, going through the list does: what comes from an item comes from the place of
the item and its place among what comes from it, the items first. -/
theorem each (listed : Lists before comes items)
    (each : ∀ place a, comes place a → Settles (failsOf a) before' (comesOf a) (load a)) :
    Settles (fun e => ∃ place a, comes place a ∧ failsOf a e) (Prod.Lex before before')
      (fun q b => ∃ a, comes q.1 a ∧ comesOf a q.2 b) (eachDocument load items) := by
  obtain ⟨placed, rfl, ordered, members⟩ := listed
  refine (each_placed ordered fun entry member => each entry.1 entry.2 ?_).congr (fun e => ?_) fun q b => ?_
  · exact (members _ _).mp member
  · rw [Prod.exists]
    simp only [members]
  · simp only [members]

end Settles

end Conform.CommandLine
