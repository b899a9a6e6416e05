/-
  Scriptlet.Proofs.Inside — what is inside of values, and where it can come from.

  Instructions move values around and put them together. So what a value inherits from the values
  it is made of (`Value.Inherited`) stays true in every place of a machine (`Machine.All`), if it is
  true of the constants, functions and objects that are added (`Does.all`).

  A value may hold functions: in arrays, in fields of objects, in the receiver of a method.
  `Value.Every` says something of all of them, `Machine.Every` of all functions that code can
  reach. Only the instruction that makes a function adds one, and constants may bring some
  along (`Does.every`).
-/

import Scriptlet.Proofs.Instruction

namespace Scriptlet

variable {Q : Closure → Prop} {S : Nat → Prop} {V W : Option Value → Prop} {name : Text} {f : Frame}
  {fields : List Field}

namespace Value

section

variable (Q : Closure → Prop)

mutual

def Every : Value → Prop
  | .array items => EveryItem items
  | .closure c => Q c
  | .object o => EveryObject o
  | .host _ _ receiver => EveryReceiver receiver
  | .none | .int _ | .float _ | .str _ | .bool _ | .proto _ | .structType _ | .builtin _ => True
termination_by structural v => v

def EveryPlace : Option Value → Prop
  | Option.none => True
  | some v => v.Every
termination_by structural v => v

def EveryItem : List (Option Value) → Prop
  | [] => True
  | v :: vs => EveryPlace v ∧ EveryItem vs
termination_by structural vs => vs

def EveryReceiver : Option (ObjectOf Value) → Prop
  | Option.none => True
  | some o => EveryObject o
termination_by structural o => o

def EveryObject : ObjectOf Value → Prop
  | ⟨_, _, _, _, fields⟩ => EveryField fields
termination_by structural o => o

def EveryField : List (FieldOf Value) → Prop
  | [] => True
  | ⟨_, _, v⟩ :: fs => EveryPlace v ∧ EveryField fs
termination_by structural fs => fs

end

end

theorem everyItem_iff {vs : List (Option Value)} : EveryItem Q vs ↔ ∀ v ∈ vs, EveryPlace Q v := by
  induction vs with
  | nil => simp [EveryItem]
  | cons v vs ih => simp [EveryItem, ih]

theorem everyField_iff {fs : List Field} : EveryField Q fs ↔ ∀ f ∈ fs, EveryPlace Q f.value := by
  induction fs with
  | nil => simp [EveryField]
  | cons f fs ih => simp [EveryField, ih]

theorem everyObject_iff {o : Object} : EveryObject Q o ↔ ∀ f ∈ o.fields, EveryPlace Q f.value := by
  cases o
  exact everyField_iff

mutual

theorem Every.mono {R : Closure → Prop} (h : ∀ c, Q c → R c) : ∀ {v : Value}, v.Every Q → v.Every R
  | .array _ => EveryItem.mono h
  | .closure c => h c
  | .object _ => EveryObject.mono h
  | .host _ _ _ => EveryReceiver.mono h
  | .none | .int _ | .float _ | .str _ | .bool _ | .proto _ | .structType _ | .builtin _ => id

theorem EveryPlace.mono {R : Closure → Prop} (h : ∀ c, Q c → R c) :
    ∀ {v}, EveryPlace Q v → EveryPlace R v
  | Option.none => id
  | some _ => Every.mono h

theorem EveryItem.mono {R : Closure → Prop} (h : ∀ c, Q c → R c) :
    ∀ {vs}, EveryItem Q vs → EveryItem R vs
  | [] => id
  | _ :: _ => fun hv => ⟨EveryPlace.mono h hv.1, EveryItem.mono h hv.2⟩

theorem EveryReceiver.mono {R : Closure → Prop} (h : ∀ c, Q c → R c) :
    ∀ {o}, EveryReceiver Q o → EveryReceiver R o
  | Option.none => id
  | some _ => EveryObject.mono h

theorem EveryObject.mono {R : Closure → Prop} (h : ∀ c, Q c → R c) :
    ∀ {o}, EveryObject Q o → EveryObject R o
  | ⟨_, _, _, _, _⟩ => EveryField.mono h

theorem EveryField.mono {R : Closure → Prop} (h : ∀ c, Q c → R c) :
    ∀ {fs}, EveryField Q fs → EveryField R fs
  | [] => id
  | ⟨_, _, _⟩ :: _ => fun hf => ⟨EveryPlace.mono h hf.1, EveryField.mono h hf.2⟩

end

theorem every_member {m : Machine} {o : Object} {id : Int} (h : EveryObject Q o) : EveryPlace Q (m.member o id) := by
  unfold Machine.member
  split
  · rename_i v hv
    unfold ObjectOf.field? at hv
    obtain ⟨f, hf, rfl⟩ := Option.map_eq_some_iff.mp hv
    exact everyObject_iff.mp h f (List.mem_of_find?_eq_some hf)
  · exact h

/-! ## What values inherit -/

def isFlat : Value → Bool
  | .array _ | .closure _ | .object _ | .host _ _ (some _) => false
  | _ => true

structure Inherited (V : Option Value → Prop) : Prop where
  none : V Option.none
  flat : ∀ {v : Value}, v.isFlat = true → V (some v)
  array : ∀ {vs : List Value}, (∀ v ∈ vs, V (some v)) → V (some (.array (vs.map some)))
  member : ∀ {m : Machine} {o : Object} {id : Int}, V (some (.object o)) → V (m.member o id)

theorem inherited_every (Q : Closure → Prop) : Inherited (EveryPlace Q) where
  none := trivial
  flat {v} h := by
    cases v with
    | host _ _ r =>
      cases r with
      | none => trivial
      | some o => cases h
    | array | closure | object => cases h
    | _ => trivial
  array h := by
    refine everyItem_iff.mpr fun v hv => ?_
    obtain ⟨u, hu, rfl⟩ := List.mem_map.mp hv
    exact h u hu
  member := every_member

theorem flat_arith {a : Arith} {u v r : Value} (h : a.apply u v = .ok r) : r.isFlat = true := by
  unfold Arith.apply at h
  split at h
  · split at h <;> cases h
    rfl
  · unfold Arith.onInts at h
    split at h
    · cases h; rfl
    · cases h; rfl
    · cases h; rfl
    · split at h <;> cases h
      rfl
  · cases h; cases a <;> rfl
  · cases h; cases a <;> rfl
  · cases h; cases a <;> rfl
  · cases h

end Value

/-! ## Scopes -/

namespace Scopes

def AllIn (S : Nat → Prop) (V : Option Value → Prop) (s : Scopes) : Prop := ∀ i, S i → ∀ t ∈ (s.table i).tags, V t.value

def All (V : Option Value → Prop) (s : Scopes) : Prop := ∀ i, ∀ t ∈ (s.table i).tags, V t.value

abbrev Every (Q : Closure → Prop) (s : Scopes) : Prop := s.All (Value.EveryPlace Q)

variable {s : Scopes}

theorem allIn_all : s.AllIn (fun _ => True) V ↔ s.All V := ⟨fun h i => h i trivial, fun h i _ => h i⟩

theorem table_update (s : Scopes) (i j : Nat) (g : Table → Table) :
    (s.update i g).table j = if i = j ∧ i < s.list.size then g (s.table j) else s.table j := by
  unfold table get? update
  rw [Array.getElem?_modify]
  by_cases h : i = j
  · subst h
    by_cases hi : i < s.list.size
    · simp [hi]
    · simp [hi]
  · simp [h]

theorem table_add (s : Scopes) (name : Text) (outer : List Nat) (j : Nat) :
    (s.add name outer).2.table j = s.table j := by
  unfold add table get?
  simp only [Array.getElem?_push]
  split
  · rename_i h
    simp [h]
  · rfl

variable {id : Int} {v : Option Value} {i : Nat}

theorem tags_bind {t : Table} {u : Tag} (h : u ∈ (t.bind id name v).tags) :
    u ∈ t.tags ∨ u.value = v := by
  have put {w : Tag} {ts : List Tag} (h : u ∈ Table.putIn w ts) : u ∈ ts ∨ u = w := by
    induction ts with
    | nil => exact .inr (by simpa [Table.putIn] using h)
    | cons x xs ih =>
      unfold Table.putIn at h
      split at h
      · rcases List.mem_cons.mp h with rfl | h
        · exact .inr rfl
        · exact .inl (List.mem_cons_of_mem _ h)
      · rcases List.mem_cons.mp h with rfl | h
        · exact .inl List.mem_cons_self
        · rcases ih h with h | h
          · exact .inl (List.mem_cons_of_mem _ h)
          · exact .inr h
  unfold Table.bind Table.insert at h
  split at h
  · rcases put h with h | rfl
    · exact .inl h
    · exact .inr rfl
  · rcases put h with h | rfl
    · exact .inl h
    · exact .inr rfl

theorem AllIn.bind (hs : s.AllIn S V) (hv : V v) :
    (s.bind i id name v).AllIn S V := by
  intro j hj t ht
  unfold Scopes.bind at ht
  rw [table_update] at ht
  split at ht
  · rcases tags_bind ht with ht | e
    · exact hs j hj t ht
    · rw [e]
      exact hv
  · exact hs j hj t ht

theorem All.bind (hs : s.All V) (hv : V v) :
    (s.bind i id name v).All V := allIn_all.mp ((allIn_all.mpr hs).bind hv)

/-- An identifier is looked up in a scope and those around it. -/
theorem AllIn.value? (hs : s.AllIn S V) (hn : V none) (hi : ∀ k ∈ s.chain i, S k) (id : Int) :
    V (s.value? i id) := by
  unfold Scopes.value?
  cases hr : s.resolve? i id with
  | none => exact hn
  | some p =>
    obtain ⟨t, j⟩ := p
    unfold resolve? resolveIn? at hr
    obtain ⟨k, hmem, hk⟩ := List.exists_of_findSome?_eq_some hr
    obtain ⟨u, hu, e⟩ := Option.map_eq_some_iff.mp hk
    cases e
    exact hs j (hi j hmem) t (List.mem_of_find?_eq_some hu)

/-- A scope that is not there yet has nothing in it. -/
theorem AllIn.grow (hs : s.AllIn S V) : s.AllIn (fun k => S k ∨ k = s.list.size) V := by
  intro k hk t ht
  rcases hk with hk | rfl
  · exact hs k hk t ht
  · simp [table, get?] at ht

theorem All.mono (h : ∀ v, V v → W v) (hs : s.All V) : s.All W :=
  fun i t ht => h _ (hs i t ht)

theorem Every.mono {Q R : Closure → Prop} (h : ∀ c, Q c → R c) (hs : s.Every Q) : s.Every R :=
  All.mono (fun _ => Value.EveryPlace.mono h) hs

end Scopes

/-! ## Frames -/

namespace Frame

/-- All fields that the frame collects for struct instances have the property. -/
def Collects (P : Field → Prop) (f : Frame) : Prop := ∀ g ∈ f.groups, ∀ fd ∈ g, P fd

section

variable {P : Field → Prop}

theorem Collects.addField (h : f.Collects P) {fd : Field} (hfd : P fd) : (f.addField fd).Collects P := by
  intro g hg x hx
  unfold Frame.addField at hg
  split at hg
  · rw [List.mem_singleton.mp hg, List.mem_singleton] at hx
    exact hx ▸ hfd
  · rename_i k ks hks
    rcases List.mem_cons.mp hg with rfl | hg
    · rcases List.mem_append.mp hx with hx | hx
      · exact h k (by simp [hks]) x hx
      · exact List.mem_singleton.mp hx ▸ hfd
    · exact h g (by simp [hks, hg]) x hx

theorem Collects.closeGroup (h : f.Collects P) : (∀ fd ∈ f.closeGroup.1, P fd) ∧ f.closeGroup.2.Collects P := by
  unfold Frame.closeGroup
  split
  · exact ⟨by simp, h⟩
  · rename_i k ks hks
    exact ⟨h k (by simp [hks]), fun g hg => h g (by simp [hks, hg])⟩

theorem Collects.openGroup (h : f.Collects P) : f.openGroup.Collects P := by
  intro g hg
  rcases List.mem_cons.mp hg with rfl | hg
  · simp
  · exact h g hg

end

structure All (V : Option Value → Prop) (f : Frame) : Prop where
  operands : ∀ o ∈ f.operands, V o.value
  groups : ∀ g ∈ f.groups, ∀ fd ∈ g, V fd.value
  result : V f.result

abbrev Every (Q : Closure → Prop) (f : Frame) : Prop := f.All (Value.EveryPlace Q)

theorem All.mono (h : ∀ v, V v → W v) (hf : f.All V) : f.All W :=
  ⟨fun o ho => h _ (hf.operands o ho), fun g hg fd hfd => h _ (hf.groups g hg fd hfd), h _ hf.result⟩

theorem Every.mono {Q R : Closure → Prop} (h : ∀ c, Q c → R c) (hf : f.Every Q) : f.Every R :=
  All.mono (fun _ => Value.EveryPlace.mono h) hf

/-- Operands that are taken from the frame hold what it holds, and so does what is left. -/
theorem All.take (hf : f.All V) (as : List Operand) {os : List Operand} (h : f.operands = as ++ os) :
    (∀ o ∈ as, V o.value) ∧ (Machine.setOperands f os).All V := by
  have hall := hf.operands
  rw [h] at hall
  exact ⟨fun o ho => hall o (List.mem_append_left _ ho), fun o ho => hall o (List.mem_append_right _ ho),
    hf.groups, hf.result⟩

/-- An instruction that fails leaves a frame that holds what it held. -/
theorem All.spend (hf : f.All V) {g : Frame} {pc : Nat} (h : Machine.Spent { f with pc := pc } g) : g.All V := by
  cases h with
  | mk hos hgs =>
    exact ⟨fun o ho => hf.operands o (hos.subset ho), fun fs hfs => hf.groups fs (hgs.subset hfs), hf.result⟩

theorem All.push (hf : f.All V) {o : Operand} (ho : V o.value) : (f.push o).All V := by
  refine ⟨fun p hp => ?_, hf.groups, hf.result⟩
  rcases List.mem_cons.mp hp with rfl | hp
  · exact ho
  · exact hf.operands p hp

theorem All.addField (hf : f.All V) {fd : Field} (h : V fd.value) : (f.addField fd).All V := by
  have hsame : (f.addField fd).operands = f.operands ∧ (f.addField fd).result = f.result := by
    unfold Frame.addField
    split <;> exact ⟨rfl, rfl⟩
  refine ⟨?_, Collects.addField (P := fun fd => V fd.value) hf.groups h, ?_⟩
  · rw [hsame.1]
    exact hf.operands
  · rw [hsame.2]
    exact hf.result

theorem All.closeGroup (hf : f.All V) : (∀ fd ∈ f.closeGroup.1, V fd.value) ∧ f.closeGroup.2.All V := by
  have hsame : f.closeGroup.2.operands = f.operands ∧ f.closeGroup.2.result = f.result := by
    unfold Frame.closeGroup
    split <;> exact ⟨rfl, rfl⟩
  obtain ⟨hfields, hgroups⟩ := Collects.closeGroup (P := fun fd => V fd.value) hf.groups
  refine ⟨hfields, ?_, hgroups, ?_⟩
  · rw [hsame.1]
    exact hf.operands
  · rw [hsame.2]
    exact hf.result

theorem All.openGroup (hf : f.All V) : f.openGroup.All V :=
  ⟨hf.operands, Collects.openGroup (P := fun fd => V fd.value) hf.groups, hf.result⟩

end Frame

/-! ## Objects -/

theorem ObjectOf.mem_setIn {α : Type} {id : Int} {v : Option α} {fs : List (FieldOf α)} {x : FieldOf α}
    (h : x ∈ setIn id name v fs) : x ∈ fs ∨ x = ⟨id, name, v⟩ ∨ ∃ f ∈ fs, f.id = id ∧ x = { f with value := v } := by
  induction fs with
  | nil => exact .inr (.inl (List.mem_singleton.mp h))
  | cons f fs ih =>
    unfold setIn at h
    split at h
    · rename_i hid
      rcases List.mem_cons.mp h with rfl | h
      · exact .inr (.inr ⟨f, List.mem_cons_self, hid, rfl⟩)
      · exact .inl (List.mem_cons_of_mem _ h)
    · rcases List.mem_cons.mp h with rfl | h
      · exact .inl List.mem_cons_self
      · rcases ih h with h | h | ⟨g, hg, h⟩
        · exact .inl (List.mem_cons_of_mem _ h)
        · exact .inr (.inl h)
        · exact .inr (.inr ⟨g, List.mem_cons_of_mem _ hg, h⟩)

theorem Registry.newObject_id (r : Registry) (ref : Ref) (type : Int) (name : Text) (fields : List Field) :
    (r.newObject ref type name fields).1.id = r.last + 1 :=
  List.foldlRecOn (motive := fun o : Object => o.id = r.last + 1) fields _ rfl fun _ ho _ _ => ho

theorem Registry.newObject_typeName (r : Registry) (ref : Ref) (type : Int) (name : Text) (fields : List Field) :
    (r.newObject ref type name fields).1.typeName = name :=
  List.foldlRecOn (motive := fun o : Object => o.typeName = name) fields _ rfl fun _ ho _ _ => ho

/-- The places of a new object are those of the fields it is made of. -/
theorem Registry.all_newObject {r : Registry} {ref : Ref} {type : Int} (h : ∀ fd ∈ fields, V fd.value) :
    ∀ fd ∈ (r.newObject ref type name fields).1.fields, V fd.value := by
  refine List.foldlRecOn (motive := fun o : Object => ∀ fd ∈ o.fields, V fd.value) fields _ (by simp) fun o ho x hx fd hfd => ?_
  rcases ObjectOf.mem_setIn hfd with hfd | rfl | ⟨f, -, -, rfl⟩
  · exact ho fd hfd
  · exact h x hx
  · exact h x hx

/-! ## Machines -/

namespace Machine

structure All (V : Option Value → Prop) (m : Machine) : Prop where
  scopes : m.scopes.All V
  frames : ∀ f ∈ m.frames, f.All V

/-- All functions that code of the machine can reach have the property. -/
abbrev Every (Q : Closure → Prop) (m : Machine) : Prop := m.All (Value.EveryPlace Q)

section

variable {m m' : Machine} {rest : List Frame}

theorem All.mono {W : Option Value → Prop} (h : ∀ v, V v → W v) (hm : m.All V) : m.All W :=
  ⟨hm.scopes.mono h, fun f hf => (hm.frames f hf).mono h⟩

theorem allIn_callScope {c : Closure} {args : List Value} (hs : m.scopes.AllIn S V) (ha : ∀ v ∈ args, V (some v)) :
    (m.callScope name c args).2.AllIn (fun k => S k ∨ k = m.scopes.list.size) V := by
  have fold {ps : List (Int × Value)} (hp : ∀ p ∈ ps, V (some p.2)) {i : Nat} {S : Nat → Prop} :
      ∀ s : Scopes, s.AllIn S V →
        (ps.foldl (fun scopes (p : Int × Value) => scopes.bind i p.1 (m.name p.1) (some p.2)) s).AllIn S V := by
    induction ps with
    | nil => exact fun s hs => hs
    | cons p ps ih =>
      simp only [List.forall_mem_cons] at hp
      exact fun s hs => ih hp.2 _ (hs.bind hp.1)
  refine fold (fun p hp => ha p.2 (List.of_mem_zip hp).2) (m.scopes.add name c.scopes).2 fun j hj t ht => ?_
  rw [Scopes.table_add] at ht
  exact hs.grow j hj t ht

theorem Valued.all {as : List Operand} {vs : List Value} (h : Valued as vs) (ha : ∀ o ∈ as, V o.value) :
    ∀ v ∈ vs, V (some v) := by
  intro v hv
  have : some v ∈ as.map (·.value) := by
    rw [h]
    exact List.mem_map_of_mem hv
  obtain ⟨o, ho, e⟩ := List.mem_map.mp this
  have := ha o ho
  rwa [e] at this

variable {stop pc : Nat} {i : Instr}

/-- It holds of what the instruction brings in: the constant that it loads, the function or the object that it makes. -/
structure Brings (V : Option Value → Prop) (m : Machine) (f : Frame) (pc : Nat) (i : Instr) : Prop where
  const : ∀ v, i.op = .loadConst → m.program.const? i.arg = some v → V (some v)
  function : ∀ p i' (as os : List Operand) ids, i.op = .makeFn →
    f.operands = ⟨some (.proto p), i'⟩ :: (as.reverse ++ os) → p.params = i.arg → i.arg = as.length →
    as.map (·.ident) = ids.map some → V (some (.closure ⟨.inner m.fresh, p, ids, m.scopes.chain f.scope⟩))
  object : m.program.isConstructor f.block pc = true → i.op = .loadIdent → (∀ fd ∈ f.closeGroup.1, V fd.value) →
    V (some (.object (m.registry.newObject (.inner m.fresh) i.arg (m.name i.arg) f.closeGroup.1).1))

/-- An instruction keeps what holds of every place that it can look at and is inherited, if it also holds of what it
    brings in. It may add a scope. -/
theorem Does.allIn (hV : Value.Inherited V) (h : Does m f rest stop pc i m') (hs : m.scopes.AllIn S V)
    (hc : ∀ k ∈ m.scopes.chain f.scope, S k) (hf : f.All V) (hr : ∀ g ∈ rest, g.All V) (hb : Brings V m f pc i) :
    m'.scopes.AllIn (fun k => S k ∨ k = m.scopes.list.size) V ∧ ∀ g ∈ m'.frames, g.All V := by
  have top {g : Frame} (hg : g.All V) : ∀ k ∈ g :: rest, k.All V := by
    simp only [List.forall_mem_cons]
    exact ⟨hg, hr⟩
  cases h with
  | loadIdent id _ => exact ⟨hs.grow, top (hf.push (hs.value? hV.none hc _))⟩
  | construct id hc _ => exact ⟨hs.grow, top (hf.closeGroup.2.push (hb.object hc rfl hf.closeGroup.1))⟩
  | store n ho =>
    obtain ⟨hv, hf⟩ := hf.take [_, _] ho
    exact ⟨hs.grow.bind (hv _ (.head _)), top hf⟩
  | loadConst hv => exact ⟨hs.grow, top (hf.push (hb.const _ rfl hv))⟩
  | createStruct id => exact ⟨hs.grow.bind (hV.flat rfl), top hf⟩
  | addField id => exact ⟨hs.grow, top hf⟩
  | storeField id ho =>
    obtain ⟨hv, hf⟩ := hf.take [_] ho
    exact ⟨hs.grow, top (hf.addField (hv _ (.head _)))⟩
  | makeArray ho hv =>
    obtain ⟨ha, hf⟩ := hf.take _ ho
    exact ⟨hs.grow, top (hf.push (hV.array (hv.all fun o h => ha o (List.mem_reverse.mpr h))))⟩
  | makeFn hp ho hi =>
    have hc := hb.function _ _ _ _ _ rfl ho hp rfl hi
    obtain ⟨-, hf⟩ := hf.take (_ :: _) ho
    exact ⟨hs.grow, top (hf.push hc)⟩
  | invoke ho hv _ _ =>
    obtain ⟨ha, hf⟩ := hf.take _ ho
    obtain ⟨-, hf⟩ := hf.take [_] rfl
    refine ⟨allIn_callScope hs (hv.all fun o h => ha o (List.mem_reverse.mpr h)), ?_⟩
    simp only [invoked, List.forall_mem_cons]
    exact ⟨⟨by simp, by simp, hV.none⟩, hf, hr⟩
  | ask ho _ _ =>
    obtain ⟨-, hf⟩ := hf.take _ ho
    exact ⟨hs.grow, top (hf.take [_] rfl).2⟩
  | arith a n _ ho hr' =>
    obtain ⟨-, hf⟩ := hf.take [_, _] ho
    exact ⟨hs.grow, top (hf.push (hV.flat (Value.flat_arith hr')))⟩
  | beginStruct n => exact ⟨hs.grow, top hf.openGroup⟩
  | loadField id ho =>
    obtain ⟨hv, hf⟩ := hf.take [_] ho
    exact ⟨hs.grow, top (hf.push (hV.member (hv _ (.head _))))⟩
  | retNone n _ => exact ⟨hs.grow, top ⟨hf.operands, hf.groups, hV.flat rfl⟩⟩
  | ret n ho =>
    obtain ⟨hv, hf⟩ := hf.take [_] ho
    exact ⟨hs.grow, top ⟨hf.operands, hf.groups, hv _ (.head _)⟩⟩

/-- An instruction keeps what holds of every place and is inherited. -/
theorem Does.all (hV : Value.Inherited V) (h : Does m f rest stop pc i m') (hs : m.scopes.All V) (hf : f.All V)
    (hr : ∀ g ∈ rest, g.All V) (hb : Brings V m f pc i) : m'.All V := by
  obtain ⟨hscopes, hframes⟩ := h.allIn hV (Scopes.allIn_all.mpr hs) (fun _ _ => trivial) hf hr hb
  exact ⟨fun i => hscopes i (.inl trivial), hframes⟩

/-- The result of a frame is one of its places, or none. -/
theorem all_frameResult (hV : Value.Inherited V) {v : Value} (h : m.frameResult f = .ok v) (hf : f.All V) : V (some v) := by
  rcases frameResult_ok.mp h with h | ⟨-, ⟨-, rfl⟩ | ⟨i, os, h⟩⟩
  · have := hf.result
    rwa [h] at this
  · exact hV.flat rfl
  · exact hf.operands ⟨some v, i⟩ (by simp [h])

theorem all_deliver {v : Value} (hv : V (some v)) (hr : ∀ g ∈ rest, g.All V) : ∀ g ∈ deliver v rest, g.All V := by
  cases rest with
  | nil => simp [deliver]
  | cons g gs =>
    simp only [deliver, List.forall_mem_cons] at hr ⊢
    exact ⟨hr.1.push hv, hr.2⟩

end

/-! ## Functions -/

section

variable {m m' : Machine} {rest : List Frame}

theorem Every.mono {R : Closure → Prop} (h : ∀ c, Q c → R c) (hm : m.Every Q) : m.Every R :=
  All.mono (fun _ => Value.EveryPlace.mono h) hm

/-- The object that is made of fields holds what they hold. -/
theorem every_newObject {r : Registry} {ref : Ref} {type : Int} (h : ∀ fd ∈ fields, Value.EveryPlace Q fd.value) :
    Value.EveryObject Q (r.newObject ref type name fields).1 :=
  Value.everyObject_iff.mpr (Registry.all_newObject h)

/-- An instruction keeps what holds of every function, if it also holds of the constant that it loads
    and of the function that it makes. -/
theorem Does.every {stop pc : Nat} {i : Instr} (h : Does m f rest stop pc i m') (hs : m.scopes.Every Q)
    (hf : f.Every Q) (hr : ∀ g ∈ rest, g.Every Q)
    (hconst : ∀ v, i.op = .loadConst → m.program.const? i.arg = some v → v.Every Q)
    (hfn : ∀ p i' (as os : List Operand) ids, i.op = .makeFn → f.operands = ⟨some (.proto p), i'⟩ :: (as.reverse ++ os) →
      p.params = i.arg → i.arg = as.length → as.map (·.ident) = ids.map some →
      Q ⟨.inner m.fresh, p, ids, m.scopes.chain f.scope⟩) : m'.Every Q :=
  h.all (Value.inherited_every Q) hs hf hr ⟨hconst, hfn, fun _ _ => every_newObject⟩

/-- Leaving a frame keeps what holds of every function. -/
theorem every_leave (h : m.leave f rest = .ok m') (hs : m.scopes.Every Q) (hf : f.Every Q)
    (hr : ∀ g ∈ rest, g.Every Q) : m'.Every Q := by
  obtain ⟨fs, hfs, rfl⟩ := leave_ok.mp h
  have hall : ∀ g ∈ fs, g.Every Q := by
    rcases hfs with ⟨-, rfl⟩ | ⟨-, v, hv, rfl⟩
    · exact hr
    · exact all_deliver (all_frameResult (Value.inherited_every Q) hv hf) hr
  split
  · unfold terminate
    split <;> exact ⟨hs, hall⟩
  · exact ⟨hs, hall⟩

end

end Machine

end Scriptlet
