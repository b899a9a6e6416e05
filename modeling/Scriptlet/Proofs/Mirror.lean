/-
  Scriptlet.Proofs.Mirror — the log of actions mirrors the objects of a machine.

  The host knows of objects from the actions alone: it adds one for each construct, sets fields by
  their names and removes an object when it is told to (`Log.replay`). The machine has a registry, in
  which fields are told apart by the numbers of their names, and for every unit a list of the
  objects that it made, which are dropped when the unit is loaded again.

  (1) A log and a registry go together (`Registry.Logged`) through whatever a machine does to them:
      other actions (`Logged.more`), new objects (`Logged.make`), dropping those of a unit
      (`Logged.forget`) and new units (`Logged.addUnit`).
  (2) All objects that code can reach were made by the machine (`Value.Known`), and the fields that
      are collected for the next one have the numbers of their names (`Program.Names`), since code of
      the compiler has no others.
  (3) Every request keeps all of this (`Tracked`), whether it succeeds or not.
-/

import Mathlib.Data.List.Induction
import Mathlib.Data.List.Perm.Basic
import Scriptlet.Proofs.Requests
import Scriptlet.Proofs.Restoring

namespace Scriptlet

open List (mem_append_left mem_map mem_cons mem_singleton map_id map_append map_cons foldl_cons forall_mem_cons
  append_assoc append_nil)

/-! ## Replaying a log -/

namespace Action

def made? : Action → Option Int
  | .construct id _ => some id
  | _ => none

def destroyed? : Action → Option Int
  | .destruct id => some id
  | _ => none

/-- The object that the action is about, which has to be there. -/
def subject? : Action → Option Int
  | .storeField id _ _ | .loadField id _ | .destruct id => some id
  | _ => none

/-- The action neither makes nor changes an object. -/
def isInert : Action → Bool
  | .construct .. | .storeField .. | .destruct _ => false
  | _ => true

theorem isInert_of_awaitsReply {a : Action} (h : a.awaitsReply = true) : a.isInert = true ∧ a.subject? = none := by
  cases a with
  | call | importModule => exact ⟨rfl, rfl⟩
  | _ => cases h

end Action

structure Replica where
  id : Int
  type : Text
  fields : List (Text × Option Value) := []

namespace Replica

def setIn (name : Text) (v : Option Value) : List (Text × Option Value) → List (Text × Option Value)
  | [] => [(name, v)]
  | f :: fs => if f.1 = name then (name, v) :: fs else f :: setIn name v fs

def set (r : Replica) (name : Text) (v : Option Value) : Replica := { r with fields := setIn name v r.fields }

end Replica

def ObjectOf.replica (o : Object) : Replica := ⟨o.id, o.typeName, o.fields.map fun f => (f.name, f.value)⟩

variable {as : List Action} {type : Int} {p : Program} {o : Object} {fields : List Field} {ref : Ref}
  {r : Registry} {name : Text} {us : List CodeUnit} {v : Value}

namespace Log

def act (rs : List Replica) : Action → List Replica
  | .construct id type => rs ++ [⟨id, type, []⟩]
  | .storeField id name v => rs.map fun r => if r.id = id then r.set name v else r
  | .destruct id => rs.filter (·.id != id)
  | _ => rs

def replay (log : List Action) : List Replica := log.foldl act []

def made (log : List Action) : List Int := log.filterMap Action.made?

def destroyed (log : List Action) : List Int := log.filterMap Action.destroyed?

def report (id : Int) (type : Text) (fields : List Field) : List Action :=
  .construct id type :: fields.map fun fd => .storeField id fd.name fd.value

/-- Objects are made before anything happens to them. -/
def Grounded (log : List Action) : Prop :=
  ∀ before a after, log = before ++ a :: after → ∀ id, a.subject? = some id → id ∈ made before

variable {log : List Action}

theorem made_append : made (log ++ as) = made log ++ made as := List.filterMap_append

theorem destroyed_append : destroyed (log ++ as) = destroyed log ++ destroyed as := List.filterMap_append

theorem replay_append : replay (log ++ as) = as.foldl act (replay log) := List.foldl_append

theorem Grounded.append (h : Grounded log) (has : ∀ a ∈ as, ∀ id, a.subject? = some id → id ∈ made log) :
    Grounded (log ++ as) := by
  have behind {before after : List Action} {a : Action} {id : Int} (cs : List Action) (hb : before = log ++ cs)
      (ha : as = cs ++ a :: after) (hid : a.subject? = some id) : id ∈ made before := by
    rw [hb, made_append]
    exact mem_append_left _ (has a (by simp [ha]) id hid)
  intro before a after he id hid
  rcases List.append_eq_append_iff.mp he with ⟨cs, hb, ha⟩ | ⟨cs, hl, ha⟩
  · exact behind cs hb ha hid
  · cases cs with
    | nil => exact behind [] (by simpa using hl.symm) ha.symm hid
    | cons c cs =>
      obtain ⟨rfl, -⟩ := List.cons.inj ha
      exact h before a cs hl id hid

theorem Grounded.destroyed_made (h : Grounded log) {id : Int} (hid : id ∈ destroyed log) : id ∈ made log := by
  obtain ⟨a, ha, hd⟩ := List.mem_filterMap.mp hid
  obtain ⟨before, after, rfl⟩ := List.append_of_mem ha
  cases a with
  | destruct id' =>
    rw [made_append]
    exact mem_append_left _ (h before _ after rfl id hd)
  | _ => cases hd

theorem destroyed_destructs (ids : List Int) : destroyed (ids.map Action.destruct) = ids := by
  induction ids with
  | nil => rfl
  | cons id ids ih => exact congrArg (id :: ·) ih

theorem made_destructs (ids : List Int) : made (ids.map Action.destruct) = [] := by
  refine List.filterMap_eq_nil_iff.mpr fun a ha => ?_
  obtain ⟨id, -, rfl⟩ := mem_map.mp ha
  rfl

section

variable (id : Int) (type : Text) (fields : List Field)

theorem made_report : made (report id type fields) = [id] := by
  refine congrArg (id :: ·) (List.filterMap_eq_nil_iff.mpr fun a ha => ?_)
  obtain ⟨fd, -, rfl⟩ := mem_map.mp ha
  rfl

theorem destroyed_report : destroyed (report id type fields) = [] := by
  refine List.filterMap_eq_nil_iff.mpr fun a ha => ?_
  rcases mem_cons.mp ha with rfl | ha
  · rfl
  · obtain ⟨fd, -, rfl⟩ := mem_map.mp ha
    rfl

theorem Grounded.report (h : Grounded log) : Grounded (log ++ Log.report id type fields) := by
  have hc : Grounded (log ++ [.construct id type]) := by
    refine h.append fun a ha i hi => ?_
    rw [mem_singleton.mp ha] at hi
    cases hi
  rw [Log.report, List.append_cons]
  refine hc.append fun a ha i hi => ?_
  obtain ⟨fd, -, rfl⟩ := mem_map.mp ha
  cases hi
  rw [made_append]
  exact List.mem_append_right _ (mem_singleton.mpr rfl)

end

/-- Setting fields of the last object leaves the others alone. -/
theorem act_stores {rs : List Replica} {r : Replica} (hrs : ∀ x ∈ rs, x.id ≠ r.id) (fields : List Field) :
    (fields.map fun fd => Action.storeField r.id fd.name fd.value).foldl act (rs ++ [r]) =
      rs ++ [fields.foldl (fun r fd => r.set fd.name fd.value) r] := by
  induction fields generalizing r with
  | nil => rfl
  | cons fd fields ih =>
    have hact : act (rs ++ [r]) (.storeField r.id fd.name fd.value) = rs ++ [r.set fd.name fd.value] := by
      have hsame : rs.map (fun x => if x.id = r.id then x.set fd.name fd.value else x) = rs := by
        refine (List.map_congr_left fun x hx => ?_).trans (map_id rs)
        exact if_neg (hrs x hx)
      rw [act, map_append, hsame]
      simp
    rw [map_cons, foldl_cons, hact]
    exact ih (r := r.set fd.name fd.value) hrs

theorem act_destructs (r : Registry) (ids : List Int) :
    (ids.map Action.destruct).foldl act (r.objects.map ObjectOf.replica) =
      (ids.foldl Registry.drop r).objects.map ObjectOf.replica := by
  induction ids generalizing r with
  | nil => rfl
  | cons id ids ih =>
    rw [map_cons, foldl_cons, foldl_cons, ← ih]
    refine congrArg (List.foldl act · _) ?_
    rw [act, List.filter_map]
    rfl

end Log

/-! ## Fields and their names -/

def Program.Names (p : Program) (fd : Field) : Prop := ∃ k : Nat, fd.id = k ∧ p.idents.lookup? fd.name = some k

section

variable {q : Program} {f g : Field}

theorem Program.Names.mono (h : p.Names f) (hle : p.idents.names <+: q.idents.names) : q.Names f := by
  obtain ⟨k, hk, hl⟩ := h
  exact ⟨k, hk, Idents.lookup?_mono hle hl⟩

/-- Numbers and names tell the same fields apart. -/
theorem Program.Names.same_iff (hf : p.Names f) (hg : p.Names g) : f.id = g.id ↔ f.name = g.name := by
  obtain ⟨k, hk, hl⟩ := hf
  obtain ⟨j, hj, hm⟩ := hg
  rw [hk, hj]
  constructor
  · intro e
    obtain rfl : k = j := by omega
    rw [Idents.lookup?_eq_some] at hl hm
    exact Option.some.inj (hl.symm.trans hm)
  · intro e
    rw [e] at hl
    exact congrArg Int.ofNat (Option.some.inj (hl.symm.trans hm))

theorem names_of_refers {id : Int} {v : Option Value} (h : ∃ k : Nat, id = k ∧ k < p.idents.size) :
    p.Names ⟨id, p.name id, v⟩ := by
  obtain ⟨k, rfl, hk⟩ := h
  refine ⟨k, rfl, Idents.lookup?_eq_some.mpr ?_⟩
  change p.idents.names[k]? = some (p.idents.names.getD k [])
  rw [List.getD_eq_getElem?_getD, List.getElem?_eq_getElem hk]
  rfl

theorem replica_setField (ho : ∀ x ∈ o.fields, p.Names x) (hf : p.Names f) :
    (o.setField f.id f.name f.value).replica = o.replica.set f.name f.value := by
  have set (fs : List Field) (hfs : ∀ x ∈ fs, p.Names x) :
      (ObjectOf.setIn f.id f.name f.value fs).map (fun x => (x.name, x.value)) =
        Replica.setIn f.name f.value (fs.map fun x => (x.name, x.value)) := by
    induction fs with
    | nil => rfl
    | cons x xs ih =>
      simp only [forall_mem_cons] at hfs
      have hsame := hfs.1.same_iff hf
      by_cases hx : x.id = f.id
      · rw [ObjectOf.setIn, if_pos hx, map_cons, map_cons, Replica.setIn, if_pos (hsame.mp hx), hsame.mp hx]
      · rw [ObjectOf.setIn, if_neg hx, map_cons, map_cons, Replica.setIn, if_neg fun e => hx (hsame.mpr e),
          ih hfs.2]
  exact congrArg (Replica.mk o.id o.typeName) (set o.fields ho)

theorem names_setField (ho : ∀ x ∈ o.fields, p.Names x) (hf : p.Names f) :
    ∀ x ∈ (o.setField f.id f.name f.value).fields, p.Names x := by
  intro x hx
  rcases ObjectOf.mem_setIn hx with hx | rfl | ⟨y, hy, -, rfl⟩
  · exact ho x hx
  · exact hf
  · exact ho y hy

/-- A new object is what comes of setting its fields by their names, one after the other. -/
theorem Registry.replica_newObject
    (h : ∀ fd ∈ fields, p.Names fd) : (r.newObject ref type name fields).1.replica =
      fields.foldl (fun r fd => r.set fd.name fd.value) ⟨r.last + 1, name, []⟩ := by
  have fold {fs : List Field} (hfs : ∀ fd ∈ fs, p.Names fd) : ∀ o : Object, (∀ x ∈ o.fields, p.Names x) →
      (fs.foldl (fun (o : Object) (f : Field) => o.setField f.id f.name f.value) o).replica =
        fs.foldl (fun r fd => r.set fd.name fd.value) o.replica := by
    induction fs with
    | nil => exact fun o _ => rfl
    | cons x xs ih =>
      simp only [forall_mem_cons] at hfs
      intro o ho
      rw [foldl_cons, foldl_cons, ih hfs.2 _ (names_setField ho hfs.1), replica_setField ho hfs.1]
  exact fold h _ (by simp)

end

/-! ## Units and their objects -/

namespace Machine

/-- The objects that units have made, and that were not dropped since. -/
def owned (us : List CodeUnit) : List Int := us.flatMap (·.objects)

def credited (name : Text) (id : Int) (us : List CodeUnit) : List CodeUnit := amended name (· ++ [id]) us

variable {u : CodeUnit}

theorem names_amended (name : Text) (f : List Int → List Int) : (amended name f us).map (·.name) = us.map (·.name) := by
  unfold amended
  rw [List.map_map]
  refine List.map_congr_left fun u _ => ?_
  dsimp only [Function.comp]
  split <;> rfl

theorem amended_id (name : Text) : amended name id us = us := by
  refine (List.map_congr_left fun u _ => ?_).trans (map_id us)
  split <;> rfl

theorem amended_of_not_mem (f : List Int → List Int) (h : name ∉ us.map (·.name)) : amended name f us = us := by
  refine (List.map_congr_left fun u hu => ?_).trans (map_id us)
  exact if_neg fun e : u.name = name => h (e ▸ List.mem_map_of_mem hu)

/-- Only the unit itself is given other objects. -/
theorem owned_amended (f : List Int → List Int) (h : (us.map (·.name)).Nodup) (hu : u ∈ us) :
    (owned (amended u.name f us)).Perm (f u.objects ++ owned (forgotten u.name us)) := by
  induction us with
  | nil => cases hu
  | cons w us ih =>
    rw [map_cons, List.nodup_cons] at h
    rcases mem_cons.mp hu with rfl | hu
    · have hsplit (g : List Int → List Int) : owned (amended u.name g (u :: us)) = g u.objects ++ owned us := by
        rw [amended, map_cons, if_pos rfl, ← amended, amended_of_not_mem g h.1]
        rfl
      rw [forgotten, hsplit, hsplit, List.nil_append]
    · have hne : w.name ≠ u.name := fun e => h.1 (e ▸ List.mem_map_of_mem hu)
      have hsplit (g : List Int → List Int) :
          owned (amended u.name g (w :: us)) = w.objects ++ owned (amended u.name g us) := by
        rw [amended, map_cons, if_neg hne]
        rfl
      rw [forgotten, hsplit, hsplit]
      exact ((ih h.2 hu).append_left w.objects).trans (List.perm_append_comm_assoc _ _ _)

theorem owned_forgotten (h : (us.map (·.name)).Nodup) (hu : u ∈ us) :
    (owned us).Perm (u.objects ++ owned (forgotten u.name us)) := by
  have hperm := owned_amended id h hu
  rwa [amended_id] at hperm

theorem owned_credited_of_mem (id : Int) (h : (us.map (·.name)).Nodup) (hn : name ∈ us.map (·.name)) :
    (owned (credited name id us)).Perm (id :: owned us) := by
  obtain ⟨u, hu, rfl⟩ := mem_map.mp hn
  have hmade : (owned (credited u.name id us)).Perm (u.objects ++ id :: owned (forgotten u.name us)) := by
    have hperm := owned_amended (· ++ [id]) h hu
    rwa [append_assoc] at hperm
  exact (hmade.trans List.perm_middle).trans ((owned_forgotten h hu).symm.cons id)

/-- An object is made for one unit, if any. -/
theorem owned_credited (name : Text) (id : Int) (h : (us.map (·.name)).Nodup) :
    owned (credited name id us) = owned us ∨ (owned (credited name id us)).Perm (id :: owned us) := by
  by_cases hn : name ∈ us.map (·.name)
  · exact .inr (owned_credited_of_mem id h hn)
  · exact .inl (congrArg owned (amended_of_not_mem _ hn))

end Machine

/-! ## (1) The registry and the log -/

/-- No number is given out twice. -/
theorem Registry.last_foldl_drop (r : Registry) (ids : List Int) : (ids.foldl drop r).last = r.last :=
  List.foldlRecOn (motive := fun s : Registry => s.last = r.last) ids _ rfl fun _ hs _ _ => hs

structure Registry.Logged (log : List Action) (us : List CodeUnit) (r : Registry) : Prop where
  made : Log.made log = (List.range r.last).map fun k : Nat => (k : Int) + 1
  grounded : Log.Grounded log
  replay : Log.replay log = r.objects.map ObjectOf.replica
  live : ∀ o ∈ r.objects, o.id ∈ Log.made log
  names : (us.map (·.name)).Nodup
  /-- No object is destroyed twice, or while a unit has it. -/
  once : (Log.destroyed log ++ Machine.owned us).Nodup
  owned : ∀ id ∈ Machine.owned us, id ∈ Log.made log

theorem Registry.logged_empty : Registry.Logged [] [] {} := by
  refine ⟨rfl, fun before a after he => ?_, rfl, by simp, .nil, .nil, by simp [Machine.owned]⟩
  simp at he

namespace Registry.Logged

open Machine (credited forgotten)

variable {log : List Action} (h : r.Logged log us)
include h

theorem mem_made {id : Int} : id ∈ Log.made log ↔ 1 ≤ id ∧ id ≤ r.last := by
  rw [h.made]
  simp only [mem_map, List.mem_range]
  constructor
  · rintro ⟨k, hk, rfl⟩
    omega
  · rintro ⟨hl, hu⟩
    exact ⟨(id - 1).toNat, by omega, by omega⟩

/-- Actions that make or change no object need one that there is. -/
theorem more (ha : ∀ a ∈ as, a.isInert = true ∧ ∀ id, a.subject? = some id → id ∈ Log.made log) :
    r.Logged (log ++ as) us := by
  have hmade : Log.made as = [] := by
    refine List.filterMap_eq_nil_iff.mpr fun a h => ?_
    cases a with
    | construct => cases (ha _ h).1
    | _ => rfl
  have hdestroyed : Log.destroyed as = [] := by
    refine List.filterMap_eq_nil_iff.mpr fun a h => ?_
    cases a with
    | destruct => cases (ha _ h).1
    | _ => rfl
  have hact (rs : List Replica) : as.foldl Log.act rs = rs := by
    refine List.foldlRecOn (motive := (· = rs)) as _ rfl fun rs' e a h => ?_
    cases a with
    | construct | storeField | destruct => cases (ha _ h).1
    | _ => exact e
  have hmade' : Log.made (log ++ as) = Log.made log := by rw [Log.made_append, hmade, append_nil]
  refine ⟨hmade'.trans h.made, h.grounded.append fun a hm => (ha a hm).2, ?_, ?_, h.names, ?_, ?_⟩
  · rw [Log.replay_append, hact, h.replay]
  · rw [hmade']
    exact h.live
  · rw [Log.destroyed_append, hdestroyed, append_nil]
    exact h.once
  · rw [hmade']
    exact h.owned

/-- A new object is reported with its fields. -/
theorem make {s : Registry}
    (ho : r.newObject ref type name fields = (o, s)) (hf : ∀ fd ∈ fields, p.Names fd) (unit : Text) :
    s.Logged (log ++ Log.report o.id o.typeName fields) (credited unit o.id us) := by
  have hid : o.id = r.last + 1 := by
    rw [← newObject_id r ref type name fields, ho]
  have hname : o.typeName = name := by
    rw [← newObject_typeName r ref type name fields, ho]
  have hlast : s.last = r.last + 1 := (congrArg (fun x => x.2.last) ho).symm
  have hobjects : s.objects = r.objects ++ [o] :=
    (congrArg (fun x => x.2.objects) ho).symm.trans (congrArg (fun x => r.objects ++ [x.1]) ho)
  have hreplica : o.replica = fields.foldl (fun r fd => r.set fd.name fd.value) ⟨o.id, o.typeName, []⟩ := by
    rw [hid, hname, ← replica_newObject hf, ho]
  have hnew : o.id ∉ Log.made log := by
    rw [h.mem_made, hid]
    omega
  have hmade : Log.made (log ++ Log.report o.id o.typeName fields) = Log.made log ++ [o.id] := by
    rw [Log.made_append, Log.made_report]
  refine ⟨?_, h.grounded.report _ _ _, ?_, ?_, ?_, ?_, ?_⟩
  · rw [hmade, h.made, hid, hlast, List.range_succ, map_append]
    rfl
  · -- No other object has the new number, so that the fields are set in the new one alone.
    rw [Log.replay_append, h.replay, Log.report, foldl_cons, Log.act,
      Log.act_stores (r := ⟨o.id, o.typeName, []⟩) (fun x hx => ?_) fields, ← hreplica, hobjects, map_append]
    · rfl
    · obtain ⟨w, hw, rfl⟩ := mem_map.mp hx
      intro e
      have hlive := h.live w hw
      rw [show w.id = o.id from e] at hlive
      exact hnew hlive
  · rw [hmade, hobjects]
    intro w hw
    rcases List.mem_append.mp hw with hw | hw
    · exact mem_append_left _ (h.live w hw)
    · rw [mem_singleton.mp hw]
      exact List.mem_append_right _ (mem_singleton.mpr rfl)
  · rw [credited, Machine.names_amended]
    exact h.names
  · rw [Log.destroyed_append, Log.destroyed_report, append_nil]
    rcases Machine.owned_credited unit o.id h.names with e | hp
    · rw [e]
      exact h.once
    · refine ((hp.append_left _).trans List.perm_middle).nodup_iff.mpr (List.nodup_cons.mpr ⟨fun hm => ?_, h.once⟩)
      rcases List.mem_append.mp hm with hm | hm
      · exact hnew (h.grounded.destroyed_made hm)
      · exact hnew (h.owned _ hm)
  · rw [hmade]
    intro id hm
    rcases Machine.owned_credited unit o.id h.names with e | hp
    · exact mem_append_left _ (h.owned id (e ▸ hm))
    · rcases mem_cons.mp (hp.mem_iff.mp hm) with rfl | hm
      · exact List.mem_append_right _ (mem_singleton.mpr rfl)
      · exact mem_append_left _ (h.owned id hm)

/-- The objects of a unit are dropped. -/
theorem forget {u : CodeUnit} (hu : u ∈ us) :
    (u.objects.foldl Registry.drop r).Logged (log ++ u.objects.map Action.destruct) (forgotten u.name us) := by
  have hperm := Machine.owned_forgotten h.names hu
  have hmine : ∀ id ∈ u.objects, id ∈ Log.made log := fun id hid =>
    h.owned id (hperm.mem_iff.mpr (mem_append_left _ hid))
  have hmade : Log.made (log ++ u.objects.map Action.destruct) = Log.made log := by
    rw [Log.made_append, Log.made_destructs, append_nil]
  have hdrop : ∀ o ∈ (u.objects.foldl Registry.drop r).objects, o ∈ r.objects :=
    List.foldlRecOn (motive := fun s : Registry => ∀ o ∈ s.objects, o ∈ r.objects) u.objects _
      (fun _ ho => ho) fun s hs id _ o ho => hs o (List.mem_filter.mp ho).1
  refine ⟨?_, ?_, ?_, ?_, ?_, ?_, ?_⟩
  · rw [hmade, last_foldl_drop, h.made]
  · refine h.grounded.append fun a ha id hid => ?_
    obtain ⟨id', hid', rfl⟩ := mem_map.mp ha
    cases hid
    exact hmine id hid'
  · rw [Log.replay_append, h.replay, Log.act_destructs]
  · rw [hmade]
    exact fun o ho => h.live o (hdrop o ho)
  · rw [forgotten, Machine.names_amended]
    exact h.names
  · -- What the unit had is now among the destroyed.
    rw [Log.destroyed_append, Log.destroyed_destructs, append_assoc]
    exact (hperm.append_left _).nodup_iff.mp h.once
  · rw [hmade]
    exact fun id hid => h.owned id (hperm.mem_iff.mpr (List.mem_append_right _ hid))

theorem addUnit {block : Int} (hn : name ∉ us.map (·.name)) : r.Logged log (us ++ [⟨name, block, []⟩]) := by
  have howned : Machine.owned (us ++ [⟨name, block, []⟩]) = Machine.owned us := by simp [Machine.owned]
  refine ⟨h.made, h.grounded, h.replay, h.live, ?_, ?_, ?_⟩
  · rw [map_append]
    exact List.Nodup.append h.names (List.nodup_singleton _) (by simpa using hn)
  · rw [howned]
    exact h.once
  · rw [howned]
    exact h.owned

end Registry.Logged

/-! ## (2) Objects in reach -/

inductive Value.Contains (o : Object) : Value → Prop
  | self : Contains o (.object o)
  | field {p : Object} {fd : Field} {v : Value} : fd ∈ p.fields → fd.value = some v → Contains o v → Contains o (.object p)
  | item {items : List (Option Value)} {v : Value} : some v ∈ items → Contains o v → Contains o (.array items)
  | receiver {symbol : Int} {name : Text} {p : Object} : Contains o (.object p) → Contains o (.host symbol name (some p))

def Value.Within (P : Int → Prop) (v : Option Value) : Prop := ∀ u o, v = some u → u.Contains o → P o.id

def Value.Known (n : Nat) (v : Option Value) : Prop := ∀ u o, v = some u → u.Contains o → 1 ≤ o.id ∧ o.id ≤ n

namespace Value

variable {P Q : Int → Prop} {n : Nat}

theorem Within.mono (hPQ : ∀ id, P id → Q id) (v : Option Value) (h : Within P v) : Within Q v :=
  fun u o hv ho => hPQ _ (h u o hv ho)

theorem inherited_within (P : Int → Prop) : Inherited (Within P) where
  none := by
    intro u o hv
    cases hv
  flat hflat := by
    rintro u o ⟨⟩ ho
    cases ho <;> cases hflat
  array hvs := by
    rintro u o ⟨⟩ ho
    cases ho with
    | item hv ho =>
      obtain ⟨w, hw, e⟩ := mem_map.mp hv
      obtain rfl := Option.some.inj e
      exact hvs w hw w o rfl ho
  member {m p id} hp := by
    intro u o hu ho
    unfold Machine.member at hu
    split at hu
    · rename_i v hv
      subst hu
      obtain ⟨fd, hfd, e⟩ := Option.map_eq_some_iff.mp hv
      exact hp _ o rfl (.field (List.mem_of_find?_eq_some hfd) e ho)
    · cases hu
      cases ho with
      | receiver ho => exact hp _ o rfl ho

theorem within_newObject (hnew : P (r.last + 1)) (h : ∀ fd ∈ fields, Within P fd.value) :
    Within P (some (.object (r.newObject ref type name fields).1)) := by
  rintro u o ⟨⟩ ho
  cases ho with
  | self =>
    rw [Registry.newObject_id]
    exact hnew
  | field hfd hv ho => exact Registry.all_newObject h _ hfd _ o hv ho

theorem IsConstant.isFlat {p : Program} {v : Value} (h : v.IsConstant p) : v.isFlat = true := by
  cases v with
  | array | closure | object | host => cases h
  | _ => rfl

theorem IsConstant.within (h : v.IsConstant p) : Within P (some v) :=
  (inherited_within P).flat h.isFlat

theorem Known.mono {k : Nat} (hk : n ≤ k) (v : Option Value) (h : Known n v) : Known k v := by
  intro u o hv ho
  have := h u o hv ho
  omega

theorem inherited_known (n : Nat) : Inherited (Known n) := inherited_within fun id => 1 ≤ id ∧ id ≤ n

end Value

theorem Program.mem_of_const? {id : Int} (h : p.const? id = some v) : v ∈ p.consts := by
  cases id with
  | ofNat n => exact List.mem_of_getElem? h
  | negSucc n => cases h

namespace Machine

variable {m : Machine} {S : List (List Node)}

section

variable {m' : Machine} {f : Frame} {rest : List Frame} {stop pc : Nat} {i : Instr}

section

variable (h : Does m f rest stop pc i m')

include h

/-- Code that names fields in the tables collects such fields. -/
theorem Does.named (hi : i.Refers m.program) (hf : f.Collects m.program.Names)
    (hr : ∀ g ∈ rest, g.Collects m.program.Names) : ∀ g ∈ m'.frames, g.Collects m.program.Names := by
  have top {g : Frame} (hg : g.Collects m.program.Names) : ∀ k ∈ g :: rest, k.Collects m.program.Names := by
    simp only [forall_mem_cons]
    exact ⟨hg, hr⟩
  cases h with
  | construct id _ _ => exact top hf.closeGroup.2
  | @storeField id v j os ho =>
    have hf : (setOperands f os).Collects m.program.Names := hf
    exact top (hf.addField (names_of_refers (hi.ident rfl)))
  | beginStruct n => exact top hf.openGroup
  | invoke ho _ _ _ =>
    simp only [invoked, forall_mem_cons]
    exact ⟨by simp [Frame.Collects], hf, hr⟩
  | _ => exact top hf

/-- The number of the last object is counted up when one is made. -/
theorem Does.last : m.registry.last ≤ m'.registry.last := by
  cases h with
  | construct => exact Nat.le_succ _
  | _ => exact Nat.le_refl _

/-- No instruction brings other objects into reach than the one that it makes, if no constant is one. -/
theorem Does.within {P : Int → Prop} (hc : ∀ v ∈ m.program.consts, v.IsConstant m.program)
    (hs : m.scopes.All (Value.Within P)) (hf : f.All (Value.Within P)) (hr : ∀ g ∈ rest, g.All (Value.Within P))
    (hnew : m.registry.last < m'.registry.last → P (m.registry.last + 1)) : m'.All (Value.Within P) := by
  refine h.all (Value.inherited_within P) hs hf hr ⟨?_, ?_, ?_⟩
  · intro v _ hv
    exact (hc v (Program.mem_of_const? hv)).within
  · rintro p i' as os ids - - - - - u o ⟨⟩ ho
    cases ho
  · intro hsite hop hfields
    cases h with
    | construct => exact Value.within_newObject (hnew (Nat.lt_succ_self _)) hfields
    | loadIdent id hno =>
      rw [hno] at hsite
      cases hsite
    | arith a n ho =>
      rw [← ho] at hop
      cases a <;> cases hop
    | _ => cases hop

/-- All objects in reach after an instruction were made by the machine. -/
theorem Does.known (hc : ∀ v ∈ m.program.consts, v.IsConstant m.program)
    (hs : m.scopes.All (Value.Known m.registry.last)) (hf : f.All (Value.Known m.registry.last))
    (hr : ∀ g ∈ rest, g.All (Value.Known m.registry.last)) : m'.All (Value.Known m'.registry.last) := by
  have grow := Value.Known.mono h.last
  refine h.within (P := fun id => 1 ≤ id ∧ id ≤ m'.registry.last) hc (hs.mono grow) (hf.mono grow)
    (fun g hg => (hr g hg).mono grow) ?_
  intro hlast
  omega

end

end

/-! ## (3) Machines -/

/-- The actions, those in the queue and those that were taken out of it, tell of the objects of the machine, which
    runs code of the compiler. -/
structure Tracked (taken : List Action) (m : Machine) : Prop where
  sourced : ∃ S, m.program.Sourced S
  named : ∀ f ∈ m.frames, f.Collects m.program.Names
  known : m.All (Value.Known m.registry.last)
  logged : m.registry.Logged (taken ++ m.queue) m.units

section

variable {taken : List Action} {m' : Machine}

/-- Actions are put into the queue. -/
theorem Tracked.put (h : Tracked taken m)
    (ha : ∀ a ∈ as, a.isInert = true ∧ ∀ id, a.subject? = some id → id ∈ Log.made (taken ++ m.queue)) :
    m.registry.Logged (taken ++ (m.queue ++ as)) m.units := by
  rw [← append_assoc]
  exact h.logged.more ha

theorem named_deliver {fs : List Frame} (h : ∀ f ∈ fs, f.Collects p.Names) :
    ∀ f ∈ deliver v fs, f.Collects p.Names := by
  cases fs with
  | nil => exact h
  | cons g gs =>
    simp only [deliver, forall_mem_cons] at h ⊢
    exact ⟨h.1, h.2⟩

/-- Frames are given up, or given a value with objects that the machine made. -/
theorem Tracked.withFrames (h : Tracked taken m) {fs : List Frame} (hn : ∀ f ∈ fs, f.Collects m.program.Names)
    (hk : ∀ f ∈ fs, f.All (Value.Known m.registry.last)) : Tracked taken (m.withFrames fs) :=
  ⟨h.sourced, hn, ⟨h.known.scopes, hk⟩, h.logged⟩

theorem Tracked.logged_exec {f : Frame} {rest : List Frame} {stop pc : Nat} {i : Instr} (h : Tracked taken m)
    (hf : f.Collects m.program.Names) (hk : f.All (Value.Known m.registry.last)) (hd : Does m f rest stop pc i m') :
    m'.registry.Logged (taken ++ m'.queue) m'.units := by
  cases hd with
  | construct id _ _ =>
    have hmade := h.logged.make
      (show m.registry.newObject (.inner m.fresh) id (m.name id) f.closeGroup.1 = (_, _) from rfl) hf.closeGroup.1
      f.closeGroup.2.unit
    rw [append_assoc] at hmade
    exact hmade
  | ask _ _ ha =>
    refine h.put fun a hm => ?_
    rw [mem_singleton.mp hm]
    obtain ⟨hinert, hnone⟩ := Action.isInert_of_awaitsReply (asks_awaitsReply ha)
    exact ⟨hinert, fun id hid => by rw [hnone] at hid; cases hid⟩
  | @loadField id o j os ho =>
    refine h.put fun a hm => ?_
    rw [mem_singleton.mp hm]
    refine ⟨rfl, fun id hid => ?_⟩
    cases hid
    exact h.logged.mem_made.mpr (hk.operands ⟨some (.object o), j⟩ (by simp [ho]) _ o rfl .self)
  | createStruct =>
    -- Types are registered beside the objects.
    obtain ⟨made, grounded, replay, live, names, once, owned⟩ := h.logged
    exact ⟨made, grounded, replay, live, names, once, owned⟩
  | _ => exact h.logged

/-- Whatever a machine does in a step is in the log. -/
theorem kept_tracked (taken : List Action) : Kept (Tracked taken) where
  exec {m m' f rest code i} h _ hf hb hi hd := by
    obtain ⟨S, hS⟩ := h.sourced
    have hnamed : ∀ g ∈ f :: rest, g.Collects m.program.Names := hf ▸ h.named
    have hknown : ∀ g ∈ f :: rest, g.All (Value.Known m.registry.last) := hf ▸ h.known.frames
    simp only [forall_mem_cons] at hnamed hknown
    have hf' : ({ f with pc := f.pc + 1 } : Frame).All (Value.Known m.registry.last) :=
      ⟨hknown.1.operands, hknown.1.groups, hknown.1.result⟩
    have hrefers : i.Refers m.program := (Compiler.wellFormed_of_sourced (c := ⟨m.program, S⟩) hS).refers _ code hb i
      (List.mem_of_getElem? hi)
    have hprogram : m'.program = m.program := hd.program
    refine ⟨⟨S, hprogram ▸ hS⟩, ?_, hd.known hS.consts h.known.scopes hf' hknown.2, ?_⟩
    · rw [hprogram]
      exact hd.named hrefers hnamed.1 hnamed.2
    · exact h.logged_exec (f := { f with pc := f.pc + 1 }) hnamed.1 hf' hd
  spend {m f g rest} h hf hg := by
    have hnamed : ∀ k ∈ f :: rest, k.Collects m.program.Names := hf ▸ h.named
    have hknown : ∀ k ∈ f :: rest, k.All (Value.Known m.registry.last) := hf ▸ h.known.frames
    rw [forall_mem_cons] at hnamed hknown
    refine h.withFrames (forall_mem_cons.mpr ⟨?_, hnamed.2⟩) (forall_mem_cons.mpr ⟨hknown.1.spend hg, hknown.2⟩)
    cases hg with
    | mk _ hgs => exact fun fs hfs => hnamed.1 fs (hgs.subset hfs)
  drop {m f rest} h hf :=
    h.withFrames (fun g hg => h.named g (by simp [hf, hg])) fun g hg => h.known.frames g (by simp [hf, hg])
  deliver {m f rest v} h hf hv := by
    have hknown : ∀ g ∈ f :: rest, g.All (Value.Known m.registry.last) := hf ▸ h.known.frames
    simp only [forall_mem_cons] at hknown
    refine h.withFrames (named_deliver fun g hg => h.named g (by simp [hf, hg])) ?_
    exact all_deliver (all_frameResult (Value.inherited_known _) hv hknown.1) hknown.2
  terminate {m} h := by
    unfold Machine.terminate
    split
    · exact h
    · refine ⟨h.sourced, h.named, ⟨h.known.scopes, h.known.frames⟩, h.put fun a ha => ?_⟩
      rw [mem_singleton.mp ha]
      exact ⟨rfl, fun id hid => by cases hid⟩
  abort h := ⟨h.sourced, h.named, ⟨h.known.scopes, h.known.frames⟩, h.logged⟩
  halt _ h _ := ⟨h.sourced, h.named, ⟨h.known.scopes, h.known.frames⟩, h.logged⟩

/-- The machine has another program, that grew out of the one before. -/
theorem Tracked.withProgram (h : Tracked taken m) (hgrown : m.program.Grown p) (hp : ∃ S, p.Sourced S) :
    Tracked taken { m with program := p } :=
  ⟨hp, fun f hf g hg fd hfd => (h.named f hf g hg fd hfd).mono hgrown.names, ⟨h.known.scopes, h.known.frames⟩, h.logged⟩

/-- A frame that was just entered has nothing yet. -/
theorem Tracked.enter (h : Tracked taken m) (name : Text) (block : Int) : Tracked taken (m.enter name block) := by
  refine ⟨h.sourced, ?_, ⟨h.known.scopes, ?_⟩, h.logged⟩
  · simp only [Machine.enter, forall_mem_cons]
    exact ⟨by simp [Frame.Collects], h.named⟩
  · simp only [Machine.enter, forall_mem_cons]
    exact ⟨⟨by simp, by simp, (Value.inherited_known _).none⟩, h.known.frames⟩

/-- Loading keeps the program one of the compiler, whether it succeeds or not. -/
theorem Becomes.grown {name : Text} {ns : List Node} (hb : Becomes m name ns m') (h : ∃ S, m.program.Sourced S) :
    m.program.Grown m'.program ∧ ∃ S, m'.program.Sourced S := by
  obtain ⟨S, hS⟩ := h
  have edited (e : Edit) {p : Program} (hp : Compiler.edited ⟨m.program, S⟩ e = p) :
      m.program.Grown p ∧ ∃ S, p.Sourced S := by
    have hnext := Compiler.next_follows (c := ⟨m.program, S⟩) hS e
    exact hp ▸ ⟨hnext.grown, _, hnext.sourced⟩
  cases hb with
  | refused => exact ⟨.refl _, S, hS⟩
  | @failedAgain u _ _ _ _ _ hp | @again u _ _ _ _ hp =>
    exact edited (.recompile u.block ns) (congrArg Prod.snd hp)
  | failedNew _ _ _ hp | new _ _ _ hp => exact edited (.compile ns) (congrArg Prod.snd hp)

theorem Tracked.becomes {ns : List Node} (h : Tracked taken m) (hb : Becomes m name ns m') : Tracked taken m' := by
  have hm : Tracked taken { m with program := m'.program } := h.withProgram (hb.grown h.sourced).1 (hb.grown h.sourced).2
  cases hb with
  | refused => exact h
  | failedAgain | failedNew => exact hm
  | @again u p _ _ hu hp =>
    have hname : u.name = name := by simpa using List.find?_some hu
    have hforget := hm.logged.forget (List.mem_of_find?_eq_some hu)
    rw [hname, append_assoc] at hforget
    refine Tracked.enter ?_ name u.block
    refine ⟨hm.sourced, hm.named, ?_, hforget⟩
    change All (Value.Known (u.objects.foldl Registry.drop m.registry).last) _
    rw [Registry.last_foldl_drop]
    exact ⟨hm.known.scopes, hm.known.frames⟩
  | @new id p _ _ hu hp =>
    have hnew : name ∉ m.units.map (·.name) := by
      intro hmem
      obtain ⟨u, hmem, e⟩ := mem_map.mp hmem
      exact List.find?_eq_none.mp hu u hmem (by simpa using e)
    refine Tracked.enter ?_ name id
    exact ⟨hm.sourced, hm.named, ⟨hm.known.scopes, hm.known.frames⟩, hm.logged.addUnit hnew⟩

/-- A reply may bring objects along that the machine has made. -/
theorem Tracked.resume (h : Tracked taken m) {v : Option Value}
    (hv : ∀ u o, v = some u → u.Contains o → o.id ∈ Log.made (taken ++ m.queue)) : Tracked taken (m.resume v).2 := by
  cases hw : m.awaiting with
  | false =>
    rw [resume_refused hw]
    exact h
  | true =>
    rw [resume_eq hw]
    refine ⟨h.sourced, named_deliver h.named, ⟨h.known.scopes, all_deliver ?_ h.known.frames⟩, h.logged⟩
    cases v with
    | none => exact (Value.inherited_known _).flat rfl
    | some u =>
      intro w o hw' ho
      cases hw'
      exact h.logged.mem_made.mp (hv u o rfl ho)

end

/-- The value of a reply holds only objects that are made in the log. -/
def Request.Knows (log : List Action) : Request → Prop
  | .resume (some v) => ∀ o, v.Contains o → o.id ∈ Log.made log
  | _ => True

theorem Tracked.next {h : History} (ht : Tracked h.taken h.machine) {r : Request} (hr : r.Knows h.log) :
    Tracked (h.next r).taken (h.next r).machine := by
  cases r with
  | load name src =>
    change Tracked h.taken (h.machine.load name src).2
    rcases load_becomes h.machine name src with e | ⟨ns, hb⟩
    · rw [e]
      exact ht
    · exact ht.becomes hb
  | loadNodes name ns => exact ht.becomes (loadNodes_becomes h.machine name ns)
  | step c => exact (kept_tracked h.taken).step ht
  | drain =>
    refine ⟨ht.sourced, ht.named, ⟨ht.known.scopes, ht.known.frames⟩, ?_⟩
    change h.machine.registry.Logged (h.log ++ []) h.machine.units
    rw [append_nil]
    exact ht.logged
  | resume v =>
    refine ht.resume ?_
    rintro u o rfl ho
    exact hr o ho
  | abort => exact ⟨ht.sourced, ht.named, ⟨ht.known.scopes, ht.known.frames⟩, ht.logged⟩
  | reset =>
    refine ⟨ht.sourced, ?_, ⟨ht.known.scopes, ?_⟩, ?_⟩
    · intro f hf
      cases hf
    · intro f hf
      cases hf
    · change h.machine.registry.Logged (h.log ++ []) h.machine.units
      rw [append_nil]
      exact ht.logged

/-! ## Starting -/

/-- A machine to start with, for code of the compiler: a new one, or one for an image of such code, which may have
    been stored in between. -/
inductive Compiled : Machine → Prop
  | new (o : Options) : Compiled (Machine.new o)
  | ofImage {es : List Edit} {i : Image} {p : Program} {o : Options} {m : Machine} : i.toProgram = .ok p →
      p.idents = (Compiler.after es).program.idents → p.slots = (Compiler.after es).program.slots →
      p.consts = (Compiler.after es).program.consts ∨ p.consts = (Compiler.after es).program.consts.map Value.restored →
      Machine.ofImage i o = .ok m → Compiled m

theorem sourced_ofProgram (h : p.Sourced S) (o : Options) : (ofProgram p o).program.Sourced S := by
  rw [ofProgram_eq]
  refine h.grow ⟨?_, List.prefix_rfl, Nat.le_refl _⟩ rfl fun v hv => .inl hv
  exact Idents.names_internAll _ _

theorem tracked_ofProgram (h : p.Sourced S) (o : Options) : Tracked [] (ofProgram p o) := by
  have hsourced := sourced_ofProgram h o
  rw [ofProgram_eq] at hsourced ⊢
  refine ⟨⟨S, hsourced⟩, ?_, ⟨Scopes.all_initial (Value.inherited_known _) _ _, ?_⟩, Registry.logged_empty⟩
  · intro f hf
    cases hf
  · intro f hf
    cases hf

/-- A program read from an image has the source of the one that was written. -/
theorem sourced_of_written {es : List Edit} (hi : p.idents = (Compiler.after es).program.idents)
    (hs : p.slots = (Compiler.after es).program.slots)
    (hc : p.consts = (Compiler.after es).program.consts ∨ p.consts = (Compiler.after es).program.consts.map Value.restored) :
    p.Sourced (Compiler.after es).sources := by
  have hS := Compiler.after_sourced es
  obtain ⟨idents, consts, slots⟩ := p
  subst hi hs
  rcases hc with rfl | rfl
  · exact hS
  · exact hS.restored

theorem Compiled.tracked (h : Compiled m) : Tracked [] m := by
  cases h with
  | new o => exact tracked_ofProgram (Compiler.after_sourced []) o
  | @ofImage es i p o m hp hi hs hc hm =>
    have hsourced := sourced_of_written hi hs hc
    obtain ⟨q, hq, rfl⟩ := ofImage_ok hm
    obtain rfl := Except.ok.inj (hp.symm.trans hq)
    have ht := tracked_ofProgram hsourced o
    have hunits : (ofProgram p o).units = [] := by rw [ofProgram_eq]
    have hlogged : (ofProgram p o).registry.Logged ([] ++ (ofProgram p o).queue) ([] ++ [⟨imageUnit, i.entry, []⟩]) :=
      (hunits ▸ ht.logged).addUnit (by simp)
    refine Tracked.enter ?_ imageUnit i.entry
    exact ⟨ht.sourced, ht.named, ⟨ht.known.scopes, ht.known.frames⟩, hlogged⟩

/-- However a machine is used, its log mirrors its objects. -/
theorem tracked_after (hm : Compiled m) {rs : List Request}
    (hrs : ∀ before r after, rs = before ++ r :: after → r.Knows (History.after m before).log) :
    Tracked (History.after m rs).taken (History.after m rs).machine := by
  induction rs using List.reverseRecOn with
  | nil => exact hm.tracked
  | append_singleton rs r ih =>
    rw [History.after_snoc]
    refine (ih fun before q after e => ?_).next (hrs rs r [] rfl)
    exact hrs before q (after ++ [r]) (by simp [e])

/-- A machine that runs code of the compiler may be used in any way, as long as replies hold no objects but those that
    it made. Then objects are made with the numbers 1, 2, 3 and so on, nothing happens to an object before it is made,
    none is destroyed twice, and the objects that there are after replaying the log are exactly those of the machine,
    with the same types and fields. The log itself only grows. -/
theorem log_mirrors_objects {m : Machine} (hm : Compiled m) (rs : List Request)
    (hrs : ∀ before r after, rs = before ++ r :: after → r.Knows (History.after m before).log) :
    Log.made (History.after m rs).log =
        (List.range (History.after m rs).machine.registry.last).map (fun k : Nat => (k : Int) + 1) ∧
      Log.Grounded (History.after m rs).log ∧
      (Log.destroyed (History.after m rs).log).Nodup ∧
      Log.replay (History.after m rs).log = (History.after m rs).machine.registry.objects.map ObjectOf.replica ∧
      ∀ r, (History.after m rs).log <+: (History.after m (rs ++ [r])).log := by
  have hlogged := (tracked_after hm hrs).logged
  refine ⟨hlogged.made, hlogged.grounded, (List.nodup_append.mp hlogged.once).1, hlogged.replay, fun r => ?_⟩
  rw [History.after_snoc]
  exact History.log_next _ r

def ball : Object := ⟨.inner 0, 1, 3, "Ball", [⟨2, "x", some (.int 2)⟩]⟩

/-- The host gives an object back; then the unit is loaded again, its code is given up, and another unit makes an
    object. -/
def exhibit : List Request :=
  [.load "main" "b = Ball \x7b x: 1, x: 2 \x7d c = f(b) c.x", .step false, .drain, .resume (some (.object ball)),
    .step false, .load "main" "Ball \x7b\x7d", .reset, .load "other" "Box \x7b y: 1 \x7d", .step false]

theorem exhibit_knows {before after : List Request} {r : Request} (h : exhibit = before ++ r :: after) :
    r.Knows (History.after (new { fallback := true }) before).log := by
  cases r with
  | resume v =>
    obtain ⟨rfl, rfl, -⟩ : before = exhibit.take 3 ∧ v = some (.object ball) ∧ after = exhibit.drop 4 := by
      simpa [exhibit, List.cons_eq_append_iff] using h
    intro o ho
    cases ho with
    | self => decide +kernel
    | field hfd hv ho =>
      obtain rfl := mem_singleton.mp hfd
      cases hv
      cases ho
  | _ => trivial

/-- The field that is set twice has its last value, and of the two objects the second one is left. -/
theorem log_mirrors_objects_exhibit :
    Log.made (History.after (new { fallback := true }) exhibit).log = [1, 2] ∧
      Log.destroyed (History.after (new { fallback := true }) exhibit).log = [1] ∧
      Log.replay (History.after (new { fallback := true }) exhibit).log =
        (History.after (new { fallback := true }) exhibit).machine.registry.objects.map ObjectOf.replica ∧
      (History.after (new { fallback := true }) exhibit).machine.registry.objects.map (·.id) = [2] ∧
      (Log.replay (History.after (new { fallback := true }) (exhibit.take 5)).log).map
        (fun r => (r.id, r.fields.map fun f => (f.1, Value.repr f.2))) = [(1, [(("x" : Text), ("2" : Text))])] := by
  have hlast : (History.after (new { fallback := true }) exhibit).machine.registry.last = 2 := by decide +kernel
  obtain ⟨hmade, -, -, hreplay, -⟩ := log_mirrors_objects (.new { fallback := true }) exhibit fun _ _ _ => exhibit_knows
  rw [hlast] at hmade
  exact ⟨hmade, by decide +kernel, hreplay, by decide +kernel, by decide +kernel⟩

end Machine

end Scriptlet
