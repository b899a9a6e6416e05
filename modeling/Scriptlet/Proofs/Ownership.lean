/-
  Scriptlet.Proofs.Ownership — every object belongs to one unit.

  A machine has its objects twice: in the registry, and by their numbers in the units for which they
  were made. A new object is credited to the unit of the frame that runs. A function runs for the
  unit that called it, wherever it was defined, so that all frames of a step run for one unit
  (`step_credits`).

  (1) Registry and units agree (`Apportioned`), and every request keeps them in agreement, whether it
      succeeds or not (`apportioned_after`). Two things are needed for it: no two units have one name,
      and the unit of each frame is loaded, or its objects would have no owner.
  (2) A unit that is loaded again gives up its objects, by ascending number, and no others are
      touched (`reload_of_ok`).
-/

import Scriptlet.Proofs.Mirror

namespace Scriptlet

/-! ## Dropping objects -/

namespace Registry

def ids (r : Registry) : List Int := r.objects.map (·.id)

theorem objects_foldl_drop (r : Registry) (gone : List Int) :
    (gone.foldl drop r).objects = r.objects.filter fun o => o.id ∉ gone := by
  induction gone generalizing r with
  | nil => simp
  | cons id gone ih =>
    rw [List.foldl_cons, ih, drop, List.filter_filter]
    refine List.filter_congr fun o _ => ?_
    by_cases h : o.id = id <;> simp [h]

theorem ids_foldl_drop (r : Registry) (gone : List Int) : (gone.foldl drop r).ids = r.ids.filter (· ∉ gone) := by
  unfold ids
  rw [objects_foldl_drop, List.filter_map]
  rfl

theorem ids_newObject (r : Registry) (ref : Ref) (type : Int) (name : Text) (fields : List Field) :
    (r.newObject ref type name fields).2.ids = r.ids ++ [(r.last : Int) + 1] := by
  change (r.objects ++ [(r.newObject ref type name fields).1]).map (·.id) = _
  rw [List.map_append, List.map_singleton, newObject_id]
  rfl

end Registry

namespace Machine

/-! ## (1) Registry and units -/

structure Apportioned (m : Machine) : Prop where
  names : (m.units.map (·.name)).Nodup
  /-- Code runs for units that are loaded. -/
  housed : ∀ f ∈ m.frames, f.unit ∈ m.units.map (·.name)
  owned : (owned m.units).Perm m.registry.ids
  ascending : m.registry.ids.Pairwise (· < ·)
  /-- Each unit has its objects in the order in which they were made. -/
  shares : ∀ u ∈ m.units, u.objects.Pairwise (· < ·)
  bounded : ∀ id ∈ m.registry.ids, 1 ≤ id ∧ id ≤ m.registry.last

variable {name : Text} {u : CodeUnit} {m : Machine}

section

variable {us : List CodeUnit}

theorem mem_owned {id : Int} (hu : u ∈ us) (hid : id ∈ u.objects) : id ∈ owned us :=
  List.mem_flatMap.mpr ⟨u, hu, hid⟩

theorem newObject_units (m : Machine) (f : Frame) (rest : List Frame) (id : Int) (fields : List Field) :
    (m.newObject f rest id fields).units = credited f.unit ((m.registry.last : Int) + 1) m.units := by
  unfold newObject
  simp only [Registry.newObject_id]
  rfl

theorem mem_amended {f : List Int → List Int} {v : CodeUnit} (h : v ∈ amended name f us) :
    ∃ u ∈ us, v.objects = f u.objects ∨ v.objects = u.objects := by
  obtain ⟨u, hu, rfl⟩ := List.mem_map.mp h
  refine ⟨u, hu, ?_⟩
  split
  · exact .inl rfl
  · exact .inr rfl

end

namespace Apportioned

theorem nodup (h : Apportioned m) : (Machine.owned m.units).Nodup :=
  h.owned.nodup_iff.mpr (h.ascending.imp fun hlt => Int.ne_of_lt hlt)

/-- A larger number goes behind the others. -/
theorem pairwise_snoc {ids : List Int} {n : Nat} (h : ids.Pairwise (· < ·)) (hn : ∀ id ∈ ids, id ≤ n) :
    (ids ++ [(n : Int) + 1]).Pairwise (· < ·) := by
  refine List.pairwise_append.mpr ⟨h, List.pairwise_singleton _ _, fun id hid k hk => ?_⟩
  have := hn id hid
  rw [List.mem_singleton.mp hk]
  omega

/-- A new object is in the list of the unit for which the frame runs. -/
theorem newObject (h : Apportioned m) {f : Frame} {rest : List Frame} (hf : ∀ g ∈ f :: rest, g.unit ∈ m.units.map (·.name))
    (id : Int) (fields : List Field) : Apportioned (m.newObject f rest id fields) := by
  have hid : ∀ u ∈ m.units, ∀ k ∈ u.objects, k ≤ (m.registry.last : Int) := fun u hu k hk =>
    (h.bounded k (h.owned.mem_iff.mp (mem_owned hu hk))).2
  have hunits := newObject_units m f rest id fields
  have hids : (m.newObject f rest id fields).registry.ids = m.registry.ids ++ [(m.registry.last : Int) + 1] :=
    Registry.ids_newObject _ _ _ _ _
  have hlast : (m.newObject f rest id fields).registry.last = m.registry.last + 1 := rfl
  have hnames : (m.newObject f rest id fields).units.map (·.name) = m.units.map (·.name) := by
    rw [hunits, credited, names_amended]
  refine ⟨hnames ▸ h.names, ?_, ?_, ?_, ?_, ?_⟩
  · rw [hnames]
    intro g hg
    rcases List.mem_cons.mp hg with rfl | hg
    · exact hf f (List.mem_cons_self ..)
    · exact hf g (List.mem_cons_of_mem _ hg)
  · rw [hunits, hids]
    exact (owned_credited_of_mem _ h.names (hf f (List.mem_cons_self ..))).trans
      ((h.owned.cons _).trans (List.perm_append_singleton _ _).symm)
  · rw [hids]
    exact pairwise_snoc h.ascending fun k hk => (h.bounded k hk).2
  · rw [hunits]
    intro v hv
    obtain ⟨u, hu, e | e⟩ := mem_amended hv
    · rw [e]
      exact pairwise_snoc (h.shares u hu) (hid u hu)
    · rw [e]
      exact h.shares u hu
  · rw [hids, hlast]
    intro k hk
    rcases List.mem_append.mp hk with hk | hk
    · have := h.bounded k hk
      omega
    · rw [List.mem_singleton.mp hk]
      omega

/-- Nothing changed but the frames, which still run for loaded units. -/
theorem withFrames (h : Apportioned m) {fs : List Frame} (hfs : ∀ f ∈ fs, f.unit ∈ m.units.map (·.name)) :
    Apportioned (m.withFrames fs) := ⟨h.names, hfs, h.owned, h.ascending, h.shares, h.bounded⟩

end Apportioned

theorem units_deliver {P : Text → Prop} {v : Value} {fs : List Frame} (h : ∀ f ∈ fs, P f.unit) :
    ∀ f ∈ deliver v fs, P f.unit := by
  cases fs with
  | nil => exact h
  | cons g gs =>
    simp only [deliver, List.forall_mem_cons] at h ⊢
    exact ⟨h.1, h.2⟩

/-- What a machine does in a step leaves no object without a unit. -/
theorem kept_apportioned : Kept Apportioned where
  exec {m m' f rest code i} h _ hf _ _ hd := by
    have hhoused : ∀ g ∈ f :: rest, g.unit ∈ m.units.map (·.name) := hf ▸ h.housed
    simp only [List.forall_mem_cons] at hhoused
    have top {g : Frame} (hg : g.unit = f.unit) : ∀ k ∈ g :: rest, k.unit ∈ m.units.map (·.name) := by
      simp only [List.forall_mem_cons]
      exact ⟨hg ▸ hhoused.1, hhoused.2⟩
    cases hd with
    | construct id _ _ =>
      refine h.newObject (top ?_) id _
      unfold Frame.closeGroup
      split <;> rfl
    | storeField id ho =>
      refine h.withFrames (top ?_)
      unfold Frame.addField
      split <;> rfl
    | invoke ho _ _ _ =>
      -- The function runs for the unit of its caller.
      refine ⟨h.names, ?_, h.owned, h.ascending, h.shares, h.bounded⟩
      simp only [invoked, List.forall_mem_cons]
      exact ⟨hhoused.1, hhoused.1, hhoused.2⟩
    | _ => exact ⟨h.names, top rfl, h.owned, h.ascending, h.shares, h.bounded⟩
  spend {m f g rest} h hf hg := by
    have hhoused : ∀ k ∈ f :: rest, k.unit ∈ m.units.map (·.name) := hf ▸ h.housed
    simp only [List.forall_mem_cons] at hhoused
    refine h.withFrames ?_
    simp only [List.forall_mem_cons]
    exact ⟨hg.sameRun.unit ▸ hhoused.1, hhoused.2⟩
  drop {m f rest} h hf := h.withFrames fun g hg => h.housed g (by simp [hf, hg])
  deliver {m f rest v} h hf _ := h.withFrames (units_deliver (P := (· ∈ m.units.map (·.name)))
    fun g hg => h.housed g (by simp [hf, hg]))
  terminate {m} h := by
    unfold Machine.terminate
    split
    · exact h
    · exact ⟨h.names, h.housed, h.owned, h.ascending, h.shares, h.bounded⟩
  abort h := ⟨h.names, h.housed, h.owned, h.ascending, h.shares, h.bounded⟩
  halt _ h _ := ⟨h.names, h.housed, h.owned, h.ascending, h.shares, h.bounded⟩

section

variable {m' : Machine}

theorem Apportioned.enter (h : Apportioned m) {name : Text} (hn : name ∈ m.units.map (·.name)) (block : Int) :
    Apportioned (m.enter name block) := by
  refine ⟨h.names, ?_, h.owned, h.ascending, h.shares, h.bounded⟩
  simp only [Machine.enter, List.forall_mem_cons]
  exact ⟨hn, h.housed⟩

theorem mem_names_of_unit? (hu : m.unit? name = some u) : u ∈ m.units ∧ u.name = name :=
  ⟨List.mem_of_find?_eq_some hu, by simpa using List.find?_some hu⟩

/-- A unit gives up its objects. -/
theorem Apportioned.forget (h : Apportioned m) (hu : u ∈ m.units) (p : Program) (q : List Action) :
    Apportioned { m with
      program := p, units := forgotten u.name m.units, registry := u.objects.foldl Registry.drop m.registry, queue := q } := by
  have hperm : (u.objects ++ Machine.owned (forgotten u.name m.units)).Perm m.registry.ids :=
    (owned_forgotten h.names hu).symm.trans h.owned
  have hnodup : (u.objects ++ Machine.owned (forgotten u.name m.units)).Nodup := (owned_forgotten h.names hu).nodup_iff.mp h.nodup
  have hnames : (forgotten u.name m.units).map (·.name) = m.units.map (·.name) := names_amended u.name _
  refine ⟨hnames ▸ h.names, hnames ▸ h.housed, ?_, ?_, ?_, ?_⟩
  · -- What is left in the registry is what the other units have.
    rw [Registry.ids_foldl_drop]
    have hleft := hperm.filter (· ∉ u.objects)
    have hmine : u.objects.filter (· ∉ u.objects) = [] := List.filter_eq_nil_iff.mpr fun id hid => by simpa using hid
    have hothers : (Machine.owned (forgotten u.name m.units)).filter (· ∉ u.objects) = Machine.owned (forgotten u.name m.units) := by
      refine List.filter_eq_self.mpr fun id hid => ?_
      have := (List.nodup_append.mp hnodup).2.2
      simpa using fun hmem => this id hmem id hid rfl
    rwa [List.filter_append, hmine, hothers, List.nil_append] at hleft
  · rw [Registry.ids_foldl_drop]
    exact h.ascending.filter _
  · intro v hv
    obtain ⟨w, hw, e | e⟩ := mem_amended (f := fun _ => []) hv
    · rw [e]
      exact .nil
    · rw [e]
      exact h.shares w hw
  · rw [Registry.ids_foldl_drop, Registry.last_foldl_drop]
    exact fun id hid => h.bounded id (List.mem_filter.mp hid).1

theorem Apportioned.becomes {ns : List Node} (h : Apportioned m) (hb : Becomes m name ns m') : Apportioned m' := by
  cases hb with
  | refused => exact h
  | failedAgain | failedNew => exact ⟨h.names, h.housed, h.owned, h.ascending, h.shares, h.bounded⟩
  | @again u p _ _ hu hp =>
    obtain ⟨hmem, rfl⟩ := mem_names_of_unit? hu
    refine Apportioned.enter (h.forget hmem p _) ?_ _
    change u.name ∈ (amended u.name (fun _ => []) m.units).map (·.name)
    rw [names_amended]
    exact List.mem_map_of_mem hmem
  | @new id p _ _ hu hp =>
    have hnew : name ∉ m.units.map (·.name) := by
      intro hmem
      obtain ⟨u, hmem, e⟩ := List.mem_map.mp hmem
      exact List.find?_eq_none.mp hu u hmem (by simpa using e)
    have hnames : (m.units ++ [(⟨name, id, []⟩ : CodeUnit)]).map (·.name) = m.units.map (·.name) ++ [name] := by simp
    refine Apportioned.enter (m := { m with program := p, units := m.units ++ [⟨name, id, []⟩] })
      ⟨?_, ?_, ?_, h.ascending, ?_, h.bounded⟩ ?_ _
    · rw [hnames]
      exact List.Nodup.append h.names (List.nodup_singleton _) (by simpa using hnew)
    · intro f hf
      rw [hnames]
      exact List.mem_append_left _ (h.housed f hf)
    · have howned : Machine.owned (m.units ++ [⟨name, id, []⟩]) = Machine.owned m.units := by simp [Machine.owned]
      exact howned ▸ h.owned
    · intro u hu
      rcases List.mem_append.mp hu with hu | hu
      · exact h.shares u hu
      · rw [List.mem_singleton.mp hu]
        exact .nil
    · simp

/-- Whatever is asked of a machine, and whether it does it or not. -/
theorem Apportioned.apply (h : Apportioned m) (r : Request) : Apportioned (r.apply m) := by
  generalize hk : r.apply m = k
  cases r.changes hk with
  | unread | unawaited => exact h
  | read hb | loaded hb => exact h.becomes hb
  | stepped c => exact kept_apportioned.step h
  | drained | aborted => exact ⟨h.names, h.housed, h.owned, h.ascending, h.shares, h.bounded⟩
  | resumed =>
    exact ⟨h.names, units_deliver (P := (· ∈ m.units.map (·.name))) h.housed, h.owned, h.ascending, h.shares, h.bounded⟩
  | reset => exact ⟨h.names, List.forall_mem_nil _, h.owned, h.ascending, h.shares, h.bounded⟩

/-- A machine starts without objects. -/
theorem Initial.apportioned (h : Initial m) : Apportioned m := by
  have empty (p : Program) (o : Options) : Apportioned (ofProgram p o) ∧ (ofProgram p o).units = [] := by
    rw [ofProgram_eq]
    exact ⟨⟨.nil, by simp, .nil, .nil, by simp, by simp [Registry.ids]⟩, rfl⟩
  cases h with
  | new o => exact (empty {} o).1
  | @ofImage i o _ h =>
    obtain ⟨p, -, rfl⟩ := ofImage_ok h
    obtain ⟨he, hunits⟩ := empty p o
    refine Apportioned.enter (m := { ofProgram p o with units := [⟨imageUnit, i.entry, []⟩] })
      ⟨by simp, ?_, ?_, he.ascending, by simp, he.bounded⟩ (by simp) _
    · intro f hf
      have := he.housed f hf
      rw [hunits] at this
      cases this
    · have howned := he.owned
      rw [hunits] at howned
      simpa [Machine.owned] using howned

theorem apportioned_after (h : Initial m) (rs : List Request) : Apportioned (History.after m rs).machine := by
  induction rs using List.reverseRecOn with
  | nil => exact h.apportioned
  | append_singleton rs r ih =>
    rw [History.after_snoc]
    exact ih.apply r

end

/-! ## Steps and the unit that they run for -/

structure Credits (unit : Text) (ids : List Int) (m m' : Machine) : Prop where
  objects : m.registry.objects <+: m'.registry.objects
  made : m'.registry.ids = m.registry.ids ++ ids
  units : m'.units = amended unit (· ++ ids) m.units

namespace Credits

variable {unit : Text} {ids jds : List Int} {m' m'' : Machine}

theorem of_eq (hr : m'.registry.objects = m.registry.objects) (hu : m'.units = m.units) : Credits unit [] m m' := by
  refine ⟨hr ▸ List.prefix_rfl, ?_, ?_⟩
  · rw [Registry.ids, hr, List.append_nil]
    rfl
  · rw [hu]
    simp only [List.append_nil]
    exact (amended_id unit).symm

theorem trans (h : Credits unit ids m m') (h' : Credits unit jds m' m'') : Credits unit (ids ++ jds) m m'' := by
  refine ⟨h.objects.trans h'.objects, ?_, ?_⟩
  · rw [h'.made, h.made, List.append_assoc]
  · rw [h'.units, h.units, amended, amended, List.map_map]
    refine List.map_congr_left fun u _ => ?_
    by_cases hu : u.name = unit <;> simp [hu]

end Credits

section

variable {m' : Machine} {f : Frame} {rest : List Frame}

/-- An instruction makes at most one object, for the unit of its frame, and the frame that is then on top runs for the
    same unit. -/
theorem Does.credits {stop pc : Nat} {i : Instr} (h : Does m f rest stop pc i m') :
    (∃ ids, Credits f.unit ids m m') ∧ ∃ g gs, m'.frames = g :: gs ∧ g.unit = f.unit := by
  have same (hr : m'.registry.objects = m.registry.objects) (hu : m'.units = m.units) : ∃ ids, Credits f.unit ids m m' :=
    ⟨[], .of_eq hr hu⟩
  cases h with
  | construct id _ _ =>
    have hunit : f.closeGroup.2.unit = f.unit := by
      unfold Frame.closeGroup
      split <;> rfl
    refine ⟨⟨[(m.registry.last : Int) + 1], List.prefix_append _ _, Registry.ids_newObject _ _ _ _ _, ?_⟩, _, _, rfl, hunit⟩
    rw [newObject_units, hunit]
    rfl
  | storeField id ho =>
    refine ⟨same rfl rfl, _, _, rfl, ?_⟩
    unfold Frame.addField
    split <;> rfl
  | _ => exact ⟨same rfl rfl, _, _, rfl, rfl⟩

theorem leave_credits {unit : Text} (h : m.leave f rest = .ok m') : Credits unit [] m m' := by
  obtain ⟨fs, -, rfl⟩ := leave_ok.mp h
  split
  · unfold Machine.terminate
    split <;> exact .of_eq rfl rfl
  · exact .of_eq rfl rfl

/-- All code that runs before a frame is left runs for one unit. -/
theorem ticks_credits (c : Signals) (n : Nat) (hf : m.frames = f :: rest) :
    ∃ ids, Credits f.unit ids m (Machine.ticks c n m).2 := by
  induction n generalizing m f rest c with
  | zero => exact ⟨[], .of_eq rfl rfl⟩
  | succ n ih =>
    unfold Machine.ticks
    cases ht : m.tick (c 0) with
    | go m' =>
      cases turns_of_tick ht with
      | went _ _ hf' _ _ he _ =>
        obtain ⟨rfl, rfl⟩ := List.cons.inj (hf.symm.trans hf')
        obtain ⟨⟨ids, hids⟩, g, gs, hg, hunit⟩ := (exec_ok he).credits
        obtain ⟨jds, hjds⟩ := ih c.later hg
        rw [hunit] at hjds
        exact ⟨ids ++ jds, hids.trans hjds⟩
    | pause m' =>
      cases turns_of_tick ht with
      | idle _ _ hnil =>
        rw [hf] at hnil
        cases hnil
      | left _ _ _ _ _ hl => exact ⟨[], leave_credits hl⟩
      | asked _ _ hf' _ _ he _ =>
        obtain ⟨rfl, rfl⟩ := List.cons.inj (hf.symm.trans hf')
        exact (exec_ok he).credits.1
    | stop m' h =>
      cases turns_of_tick ht <;> exact ⟨[], .of_eq rfl rfl⟩

theorem step_credits (c : Signals) (hf : m.frames = f :: rest) : ∃ ids, Credits f.unit ids m (m.step c).2 := by
  unfold Machine.step
  split
  · exact ⟨[], .of_eq rfl rfl⟩
  · split
    · exact ⟨[], .of_eq rfl rfl⟩
    · exact ticks_credits c _ hf

end

/-! ## (2) Loading a unit again -/

/-- The unit has given up its objects to the host, by ascending number, and all others are left as they were. -/
structure Reloaded (m : Machine) (u : CodeUnit) (m' : Machine) : Prop where
  objects : m'.registry.objects = m.registry.objects.filter fun o => o.id ∉ u.objects
  last : m'.registry.last = m.registry.last
  queue : m'.queue = m.queue ++ u.objects.map Action.destruct
  units : m'.units = m.units.map fun v => if v.name = u.name then { v with objects := [] } else v

theorem reload_of_ok (hu : m.unit? name = some u) {ns : List Node} (h : (m.loadNodes name ns).1 = .ok ()) :
    Reloaded m u (m.loadNodes name ns).2 := by
  obtain ⟨-, rfl⟩ := mem_names_of_unit? hu
  cases hh : m.halted with
  | some _ =>
    unfold loadNodes at h
    rw [hh] at h
    cases h
  | none =>
    cases hw : m.awaiting with
    | true =>
      unfold loadNodes at h
      rw [hh, hw] at h
      cases h
    | false =>
      rcases hp : m.program.recompile u.block ns with ⟨_ | ⟨⟩, p⟩
      · unfold loadNodes at h
        simp only [hh, hw, hu, hp] at h
        cases h
      · rw [loadNodes_again hh hw hu hp, dropObjects_all]
        exact ⟨Registry.objects_foldl_drop _ _, Registry.last_foldl_drop _ _, rfl, rfl⟩

theorem reload_of_source (hu : m.unit? name = some u) {src : Text} (h : (m.load name src).1 = .ok ()) :
    Reloaded m u (m.load name src).2 := by
  unfold load at h ⊢
  cases hp : Parse.source src with
  | error e =>
    rw [hp] at h
    cases h
  | ok ns =>
    rw [hp] at h
    exact reload_of_ok hu h

/-- However a machine was used, the objects of its registry are those in the lists of its units, each of them once, and
    their numbers were given out before. What a step makes goes to the unit for which the frame on top runs, also from
    within functions of other units. If a unit is loaded again and that succeeds, exactly its objects go, by ascending
    number. -/
theorem every_object_owned_by_one_unit {start : Machine} (hstart : Initial start) (rs : List Request) {m : Machine}
    (hm : m = (History.after start rs).machine) :
    (owned m.units).Perm m.registry.ids ∧ (owned m.units).Nodup ∧
      (∀ id ∈ owned m.units, 1 ≤ id ∧ id ≤ m.registry.last) ∧
      (∀ c f rest, m.frames = f :: rest → ∃ ids, Credits f.unit ids m (m.step c).2) ∧
      ∀ name u, m.unit? name = some u → u.objects.Pairwise (· < ·) ∧
        (∀ ns, (m.loadNodes name ns).1 = .ok () → Reloaded m u (m.loadNodes name ns).2) ∧
        ∀ src, (m.load name src).1 = .ok () → Reloaded m u (m.load name src).2 := by
  have h : Apportioned m := hm ▸ apportioned_after hstart rs
  refine ⟨h.owned, h.nodup, ?_, ?_, ?_⟩
  · intro id hid
    exact h.bounded id (h.owned.mem_iff.mp hid)
  · intro c f rest hf
    exact step_credits c hf
  · intro name u hu
    refine ⟨h.shares u (mem_names_of_unit? hu).1, ?_, ?_⟩
    · intro ns hns
      exact reload_of_ok hu hns
    · intro src hsrc
      exact reload_of_source hu hsrc

/-- A unit calls its own function to make an object. Then another unit has the same function make one, and makes a
    third itself. -/
def visit : List Request :=
  [.load "lib" "make = () => Ball \x7b x: 1 \x7d c = make()", .step false, .step false,
    .load "main" "a = make() b = Box \x7b\x7d", .step false, .step false]

/-- The object that the function made for its caller stays when the unit of the function is loaded again, and goes with
    the unit of the caller. -/
theorem every_object_owned_by_one_unit_visit :
    (owned (History.after (new {}) visit).machine.units).Perm (History.after (new {}) visit).machine.registry.ids ∧
      (History.after (new {}) visit).machine.units.map (·.objects) = [[1], [2, 3]] ∧
      ((History.after (new {}) visit).machine.load "lib" "0").2.queue =
        (History.after (new {}) visit).machine.queue ++ [.destruct 1] ∧
      ((History.after (new {}) visit).machine.load "main" "0").2.queue =
        (History.after (new {}) visit).machine.queue ++ [.destruct 2, .destruct 3] := by
  have run : (History.after (new {}) visit).machine.units.map (·.objects) = [[1], [2, 3]] ∧
      ((History.after (new {}) visit).machine.unit? "lib").map (·.objects) = some [1] ∧
      ((History.after (new {}) visit).machine.unit? "main").map (·.objects) = some [2, 3] ∧
      ((History.after (new {}) visit).machine.load "lib" "0").1.isOk = true ∧
      ((History.after (new {}) visit).machine.load "main" "0").1.isOk = true := by decide +kernel
  have ok {x : Except MachineError Unit} (h : x.isOk = true) : x = .ok () := by
    cases x with
    | ok => rfl
    | error => cases h
  obtain ⟨hunits, hlib, hmain, libOk, mainOk⟩ := run
  obtain ⟨lib, hlib, hlibObjects⟩ := Option.map_eq_some_iff.mp hlib
  obtain ⟨main, hmain, hmainObjects⟩ := Option.map_eq_some_iff.mp hmain
  obtain ⟨hperm, -, -, -, hreload⟩ := every_object_owned_by_one_unit (.new {}) visit rfl
  have hlibQueue := ((hreload "lib" lib hlib).2.2 "0" (ok libOk)).queue
  have hmainQueue := ((hreload "main" main hmain).2.2 "0" (ok mainOk)).queue
  rw [hlibObjects] at hlibQueue
  rw [hmainObjects] at hmainQueue
  exact ⟨hperm, hunits, hlibQueue, hmainQueue⟩

end Machine

end Scriptlet
