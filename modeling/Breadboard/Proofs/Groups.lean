import Breadboard.Proofs.Forest
import Breadboard.Reach

/-!
# Groups of wires are apart

Linked wires belong to one group (`group_eq_of_linked`). Merging only ever joins wires
with a common port, and of all wires that were visited at a port it has joined each with
the owner of the port (`Merging.Valid`). When all ends are visited, wires have one root if
and only if they are linked (`root_mergeWires`).
-/

namespace Breadboard

variable {wires : List Wire} {a b first second : Nat} {near far : Wire}

/-- Whether two wires end at a common port. -/
def Wire.touches (a b : Wire) : Bool :=
  a.endpoints.any (· ∈ b.endpoints)

/-- For each wire the positions of the wires it touches. -/
def touching (wires : List Wire) : List (List Nat) :=
  wires.map fun wire =>
    (List.range wires.length).filter fun other => wires[other]?.any wire.touches

theorem Wire.touches_iff : near.touches far = true ↔
    ∃ endpoint, endpoint ∈ near.endpoints ∧ endpoint ∈ far.endpoints := by
  simp [Wire.touches]

/-- The wires that can be reached through common endpoints. -/
abbrev Linked (wires : List Wire) : Nat → Nat → Prop :=
  Reaches fun wire => (touching wires).getD wire []

theorem mem_touching : b ∈ (touching wires).getD a [] ↔
    ∃ near far, wires[a]? = some near ∧ wires[b]? = some far ∧ near.touches far = true := by
  rw [touching, List.getD_eq_getElem?_getD, List.getElem?_map]
  cases hnear : wires[a]? with
  | none => simp
  | some near =>
    simp only [Option.map_some, Option.getD_some, List.mem_filter, List.mem_range]
    constructor
    · rintro ⟨hlt, htouches⟩
      obtain ⟨far, hfar, htouches⟩ := (Option.any_eq_true _ _).mp htouches
      exact ⟨near, far, rfl, hfar, htouches⟩
    · rintro ⟨_, far, hsame, hfar, htouches⟩
      obtain rfl := Option.some.inj hsame
      exact ⟨(List.getElem?_eq_some_iff.mp hfar).1, by simp [hfar, htouches]⟩

theorem touching_comm : b ∈ (touching wires).getD a [] → a ∈ (touching wires).getD b [] := by
  intro h
  obtain ⟨near, far, hnear, hfar, htouches⟩ := mem_touching.mp h
  obtain ⟨endpoint, hend, hend'⟩ := Wire.touches_iff.mp htouches
  exact mem_touching.mpr ⟨far, near, hfar, hnear, Wire.touches_iff.mpr ⟨endpoint, hend', hend⟩⟩

theorem Linked.symm (h : Linked wires a b) : Linked wires b a := by
  induction h with
  | refl => exact .refl _
  | head hmem _ ih => exact ih.tail (touching_comm hmem)

theorem mem_reach_touching (hfirst : first < wires.length) :
    a ∈ reach (fun wire => (touching wires).getD wire []) wires.length first ↔
      Linked wires first a := by
  refine mem_reach_iff hfirst fun a b h => ?_
  obtain ⟨_, far, -, hfar, -⟩ := mem_touching.mp h
  exact (List.getElem?_eq_some_iff.mp hfar).1

theorem mem_of_lookup {α β : Type} [BEq α] [LawfulBEq α] {entries : List (α × β)} {key : α}
    {found : β} (h : entries.lookup key = some found) : (key, found) ∈ entries := by
  obtain ⟨before, after, rfl, -⟩ := List.lookup_eq_some_iff.mp h
  simp

/-! ## Merging linked wires -/

theorem mem_numberedEnds {endpoint : Endpoint} : (a, endpoint) ∈ numberedEnds wires ↔
    ∃ wire, wires[a]? = some wire ∧ endpoint ∈ wire.endpoints := by
  simp only [numberedEnds, List.mem_flatMap, List.mem_map, Prod.exists,
    List.mk_mem_zipIdx_iff_getElem?]
  constructor
  · rintro ⟨wire, position, hwire, other, hmem, heq⟩
    obtain ⟨rfl, rfl⟩ := Prod.mk.inj heq
    exact ⟨wire, hwire, hmem⟩
  · rintro ⟨wire, hwire, hmem⟩
    exact ⟨wire, a, hwire, endpoint, hmem, rfl⟩

theorem linked_of_common {endpoint : Endpoint} (ha : (a, endpoint) ∈ numberedEnds wires)
    (hb : (b, endpoint) ∈ numberedEnds wires) : Linked wires a b := by
  obtain ⟨near, hnear, hend⟩ := mem_numberedEnds.mp ha
  obtain ⟨far, hfar, hend'⟩ := mem_numberedEnds.mp hb
  exact .head (mem_touching.mpr ⟨near, far, hnear, hfar,
    Wire.touches_iff.mpr ⟨endpoint, hend, hend'⟩⟩) (.refl b)

theorem lt_of_mem_numberedEnds {endpoint : Endpoint} (h : (a, endpoint) ∈ numberedEnds wires) :
    a < wires.length := by
  obtain ⟨_, hwire, -⟩ := mem_numberedEnds.mp h
  exact (List.getElem?_eq_some_iff.mp hwire).1

namespace Merging

/-- What holds when some ends are visited: only linked wires are in one class, and every
wire is with the owners of the ports that it was visited at. -/
structure Valid (wires : List Wire) (visited : List (Nat × Endpoint)) (merging : Merging) :
    Prop where
  length : merging.forest.parents.length = wires.length
  linked : ∀ wire, Linked wires wire (merging.forest.root wire)
  owner : ∀ {endpoint owner}, (endpoint, owner) ∈ merging.owners →
    (owner, endpoint) ∈ numberedEnds wires
  owned : ∀ {wire endpoint}, (wire, endpoint) ∈ visited → ∃ owner,
    merging.owners.lookup endpoint = some owner ∧
      merging.forest.root wire = merging.forest.root owner

theorem valid_apart (wires : List Wire) :
    Valid wires [] { forest := .apart wires.length } where
  length := List.length_range
  linked wire := by
    rw [Forest.root_apart]
    exact .refl wire
  owner h := by cases h
  owned h := by cases h

variable {visited : List (Nat × Endpoint)} {merging : Merging}

theorem Valid.visit (h : Valid wires visited merging) {wireEnd : Nat × Endpoint}
    (hend : wireEnd ∈ numberedEnds wires) :
    Valid wires (visited ++ [wireEnd]) (merging.visit wireEnd) := by
  obtain ⟨wire, endpoint⟩ := wireEnd
  simp only [Merging.visit]
  split
  · next owner howner =>
    have howned := h.owner (mem_of_lookup howner)
    have hwire := h.length ▸ lt_of_mem_numberedEnds hend
    have hother := h.length ▸ lt_of_mem_numberedEnds howned
    have hroots : Linked wires (merging.forest.root wire) (merging.forest.root owner) :=
      ((h.linked wire).symm.trans (linked_of_common hend howned)).trans (h.linked owner)
    refine ⟨(Forest.length_merge ..).trans h.length, fun third => ?_, h.owner, ?_⟩
    · rw [Forest.root_merge hwire hother]
      split
      · next heq =>
        -- the root of the third wire gives way to the other one of the two
        refine (h.linked third).trans (heq ▸ ?_)
        rcases Nat.le_total (merging.forest.root wire) (merging.forest.root owner) with hle | hle
        · rw [Nat.max_eq_right hle, Nat.min_eq_left hle]
          exact hroots.symm
        · rw [Nat.max_eq_left hle, Nat.min_eq_right hle]
          exact hroots
      · exact h.linked third
    · intro third port hthird
      rcases List.mem_append.mp hthird with hthird | hthird
      · obtain ⟨other, hlookup, hroot⟩ := h.owned hthird
        exact ⟨other, hlookup, Forest.root_merge_congr hwire hother hroot⟩
      · obtain ⟨rfl, rfl⟩ := Prod.mk.inj (List.mem_singleton.mp hthird)
        exact ⟨owner, howner, Forest.root_merge_self hwire hother⟩
  · next hnone =>
    refine ⟨h.length, h.linked, fun {port other} hmem => ?_, fun {third port} hthird => ?_⟩
    · rcases List.mem_cons.mp hmem with heq | hmem
      · obtain ⟨rfl, rfl⟩ := Prod.mk.inj heq
        exact hend
      · exact h.owner hmem
    · rw [List.lookup_cons]
      rcases List.mem_append.mp hthird with hthird | hthird
      · obtain ⟨other, hlookup, hroot⟩ := h.owned hthird
        have hne : (port == endpoint) = false := by
          refine beq_eq_false_iff_ne.mpr ?_
          rintro rfl
          rw [hnone] at hlookup
          cases hlookup
        exact ⟨other, by rw [hne]; exact hlookup, hroot⟩
      · obtain ⟨rfl, rfl⟩ := Prod.mk.inj (List.mem_singleton.mp hthird)
        exact ⟨third, by rw [beq_self_eq_true], rfl⟩

theorem Valid.foldl_visit (ends : List (Nat × Endpoint)) (hends : ∀ wireEnd ∈ ends,
    wireEnd ∈ numberedEnds wires) : ∀ {visited merging}, Valid wires visited merging →
      Valid wires (visited ++ ends) (ends.foldl Merging.visit merging) := by
  induction ends with
  | nil =>
    intro visited merging h
    rwa [List.append_nil]
  | cons wireEnd rest ih =>
    intro visited merging h
    have hstep := h.visit (hends _ List.mem_cons_self)
    have hrest := ih (fun other hother => hends other (List.mem_cons_of_mem _ hother)) hstep
    rwa [List.append_assoc, List.singleton_append] at hrest

end Merging

/-- The classes are the linked wires. -/
theorem root_mergeWires :
    (mergeWires wires).root a = (mergeWires wires).root b ↔ Linked wires a b := by
  have hvalid := Merging.Valid.foldl_visit (numberedEnds wires) (fun _ h => h)
    (Merging.valid_apart wires)
  rw [List.nil_append] at hvalid
  constructor
  · intro h
    have hlinked := hvalid.linked a
    exact hlinked.trans (h ▸ (hvalid.linked b).symm)
  · intro h
    induction h with
    | refl => rfl
    | head hmem _ ih =>
      obtain ⟨near, far, hnear, hfar, htouches⟩ := mem_touching.mp hmem
      obtain ⟨endpoint, hend, hend'⟩ := Wire.touches_iff.mp htouches
      obtain ⟨owner, howner, hroot⟩ := hvalid.owned (mem_numberedEnds.mpr ⟨near, hnear, hend⟩)
      obtain ⟨other, hother, hroot'⟩ := hvalid.owned (mem_numberedEnds.mpr ⟨far, hfar, hend'⟩)
      obtain rfl := Option.some.inj (howner.symm.trans hother)
      exact hroot.trans (hroot'.symm.trans ih)

/-! ## The groups -/

/-- The wires below a root, in order. -/
def Forest.below (forest : Forest) (count root : Nat) : List Nat :=
  (List.range count).filter fun wire => forest.root wire = root

theorem wireGroups_eq (wires : List Wire) : wireGroups wires =
    (List.range wires.length).filterMap fun root =>
      let group := (mergeWires wires).below wires.length root
      if group = [] then none else some group := by
  have hzip : ((List.range wires.length).map (mergeWires wires).root).zipIdx =
      (List.range wires.length).map fun wire => ((mergeWires wires).root wire, wire) := by
    refine List.ext_getElem (by simp) fun place _ _ => ?_
    simp
  rw [wireGroups, classes, Forest.roots_eq, List.length_map, List.length_range]
  refine congrArg (List.filterMap · _) (funext fun root => ?_)
  have hmembers : ((List.range wires.length).map fun wire =>
      ((mergeWires wires).root wire, wire)).filter (·.1 = root) =
      ((mergeWires wires).below wires.length root).map fun wire => (root, wire) := by
    rw [List.filter_map, Forest.below]
    refine List.map_congr_left fun wire hwire => ?_
    exact Prod.ext (of_decide_eq_true (List.mem_filter.mp hwire).2) rfl
  rw [hzip, hmembers]
  cases (mergeWires wires).below wires.length root with
  | nil => rfl
  | cons wire rest => simp [Function.comp_def]

theorem mem_below : a ∈ (mergeWires wires).below wires.length first ↔
    a < wires.length ∧ (mergeWires wires).root a = first := by
  simp [Forest.below]

theorem root_of_below (hne : (mergeWires wires).below wires.length first ≠ []) :
    (mergeWires wires).root first = first := by
  obtain ⟨wire, hwire⟩ := List.exists_mem_of_ne_nil _ hne
  rw [← (mem_below.mp hwire).2, Forest.root_root]

/-- A group holds the wires below a root. -/
theorem mem_wireGroups_iff {group : List Nat} : group ∈ wireGroups wires ↔
    ∃ first < wires.length, (mergeWires wires).root first = first ∧
      group = (mergeWires wires).below wires.length first := by
  simp only [wireGroups_eq, List.mem_filterMap, List.mem_range, Option.ite_none_left_eq_some,
    Option.some.injEq]
  refine exists_congr fun first => and_congr_right fun hfirst => ⟨?_, ?_⟩
  · rintro ⟨hne, rfl⟩
    exact ⟨root_of_below hne, rfl⟩
  · rintro ⟨hroot, rfl⟩
    exact ⟨List.ne_nil_of_mem (mem_below.mpr ⟨hfirst, hroot⟩), rfl⟩

/-- What a group holds: all that its first wire reaches. -/
theorem mem_wireGroups {group : List Nat} (h : group ∈ wireGroups wires) :
    ∃ first, first < wires.length ∧ ∀ a, a ∈ group ↔ Linked wires first a := by
  obtain ⟨first, hfirst, hroot, rfl⟩ := mem_wireGroups_iff.mp h
  refine ⟨first, hfirst, fun a => ?_⟩
  rw [mem_below, ← root_mergeWires, hroot, eq_comm (a := first)]
  refine and_iff_right_of_imp fun hsame => ?_
  cases root_mergeWires.mp (hsame.trans hroot.symm) with
  | refl => exact hfirst
  | head hmem _ =>
    obtain ⟨near, -, hnear, -⟩ := mem_touching.mp hmem
    exact (List.getElem?_eq_some_iff.mp hnear).1

theorem lt_of_mem_wireGroups {group : List Nat} (hgroup : group ∈ wireGroups wires)
    (ha : a ∈ group) : a < wires.length := by
  obtain ⟨first, -, -, rfl⟩ := mem_wireGroups_iff.mp hgroup
  exact (mem_below.mp ha).1

theorem linked_of_group {group : List Nat} (h : group ∈ wireGroups wires) (ha : a ∈ group)
    (hb : b ∈ group) : Linked wires a b := by
  obtain ⟨first, -, hmem⟩ := mem_wireGroups h
  exact ((hmem a).mp ha).symm.trans ((hmem b).mp hb)

/-- Every wire is in a group. -/
theorem exists_group (ha : a < wires.length) : ∃ group ∈ wireGroups wires, a ∈ group :=
  ⟨_, mem_wireGroups_iff.mpr ⟨_, Nat.lt_of_le_of_lt (Forest.root_le _ a) ha,
    Forest.root_root _ a, rfl⟩,
    mem_below.mpr ⟨ha, rfl⟩⟩

/-- No wire of one group is linked to a wire of another. -/
theorem unlinked_wireGroups (wires : List Wire) :
    (wireGroups wires).Pairwise fun group other =>
      ∀ a ∈ group, ∀ b ∈ other, ¬ Linked wires a b := by
  rw [wireGroups_eq]
  refine List.Pairwise.filterMap _ ?_ List.pairwise_lt_range
  intro first second hlt group hgroup other hother a ha b hb hlinked
  obtain rfl := Option.some.inj (Option.ite_none_left_eq_some.mp hgroup).2
  obtain rfl := Option.some.inj (Option.ite_none_left_eq_some.mp hother).2
  have hroots := root_mergeWires.mpr hlinked
  rw [(mem_below.mp ha).2, (mem_below.mp hb).2] at hroots
  omega

/-- Linked wires are in one group. -/
theorem group_eq_of_linked {group other : List Nat}
    (hfirst : (wireGroups wires)[first]? = some group)
    (hsecond : (wireGroups wires)[second]? = some other) (ha : a ∈ group) (hb : b ∈ other)
    (hlinked : Linked wires a b) : first = second := by
  obtain ⟨hlt, rfl⟩ := List.getElem?_eq_some_iff.mp hfirst
  obtain ⟨hlt', rfl⟩ := List.getElem?_eq_some_iff.mp hsecond
  have hpairwise := List.pairwise_iff_getElem.mp (unlinked_wireGroups wires)
  rcases Nat.lt_trichotomy first second with h | h | h
  · exact absurd hlinked (hpairwise first second hlt hlt' h a ha b hb)
  · exact h
  · exact absurd hlinked.symm (hpairwise second first hlt' hlt h b hb a ha)

/-- Wires with a common endpoint are in one group. -/
theorem group_eq_of_touches {group other : List Nat}
    (hfirst : (wireGroups wires)[first]? = some group)
    (hsecond : (wireGroups wires)[second]? = some other) (ha : a ∈ group) (hb : b ∈ other)
    (hnear : wires[a]? = some near) (hfar : wires[b]? = some far)
    (htouches : near.touches far = true) : first = second :=
  group_eq_of_linked hfirst hsecond ha hb
    (.head (mem_touching.mpr ⟨near, far, hnear, hfar, htouches⟩) (.refl b))

end Breadboard
