/-
  Scriptlet.Proofs.Flattening — configurations and the order of the entries of their tables.

  The data of a document has no order: its tables are maps. Flattening visits the entries of every
  table one after the other, and what is set later wins. `Reorders` says of two trees that they are
  the same data, and `Assigns` which keys a tree sets to which values; neither knows an order.

  (1) Trees that are the same data assign the same (`covers_of_reorders`).
  (2) Flattening sets exactly the keys that are assigned something, each to one of the values that are
      assigned to it (`add_settles`).
  (3) Each of these values is what the key is set to if the tables are visited in a suitable order, its
      own path last in all of them (`assigned_last`).
  (4) So the order does not matter if and only if no key is assigned different values
      (`order_irrelevant_iff`). Paths of different lengths can make one dotted key, and then it does
      (`order_matters`).
-/

import Scriptlet.Settings

namespace Scriptlet

variable {es : Entries}

namespace Toml.Tree

/-! ## Trees without an order -/

/-- The same data: the trees differ in the order of the entries of tables only, at any depth. -/
inductive Reorders : Tree → Tree → Prop
  | refl (t : Tree) : Reorders t t
  | symm {t u : Tree} : Reorders t u → Reorders u t
  | trans {t u v : Tree} : Reorders t u → Reorders u v → Reorders t v
  | swap (before after : Entries) (x y : Text × Tree) :
      Reorders (.table (before ++ x :: y :: after)) (.table (before ++ y :: x :: after))
  | entry (before after : Entries) (k : Text) {t u : Tree} : Reorders t u →
      Reorders (.table (before ++ (k, t) :: after)) (.table (before ++ (k, u) :: after))
  | item (before after : List Tree) {t u : Tree} : Reorders t u →
      Reorders (.list (before ++ t :: after)) (.list (before ++ u :: after))
  | element (before after : List Entries) {es fs : Entries} : Reorders (.table es) (.table fs) →
      Reorders (.tables (before ++ es :: after)) (.tables (before ++ fs :: after))

def isTable : Tree → Bool
  | .table _ => true
  | _ => false

mutual

/-- Trees are tables of trees, and values. -/
theorem induction_entries {P : Tree → Prop} (table : ∀ es : Entries, (∀ x ∈ es, P x.2) → P (.table es))
    (value : ∀ v : Tree, v.isTable = false → P v) (t : Tree) : P t := by
  cases t with
  | table es => exact table es (induction_all table value es)
  | _ => exact value _ rfl
termination_by structural t

theorem induction_all {P : Tree → Prop} (table : ∀ es : Entries, (∀ x ∈ es, P x.2) → P (.table es))
    (value : ∀ v : Tree, v.isTable = false → P v) (es : List (Text × Tree)) : ∀ x ∈ es, P x.2 := by
  cases es with
  | nil => simp
  | cons x es =>
    cases x with
    | mk k t => exact List.forall_mem_cons.mpr ⟨induction_entries table value t, induction_all table value es⟩
termination_by structural es

end

/-- An entry can go behind others. -/
theorem reorders_past (x : Text × Tree) (es before after : Entries) :
    Reorders (.table (before ++ x :: (es ++ after))) (.table (before ++ (es ++ x :: after))) := by
  induction es generalizing before with
  | nil => exact .refl _
  | cons y es ih =>
    have hrest := ih (before ++ [y])
    rw [List.append_assoc, List.append_assoc] at hrest
    exact .trans (.swap before (es ++ after) x y) hrest

mutual

/-- The tree with the entries of its tables the other way round. -/
def backwards : Tree → Tree
  | .table es => .table (backwardsAll es)
  | t => t
termination_by structural t => t

def backwardsAll : List (Text × Tree) → List (Text × Tree)
  | [] => []
  | (k, t) :: es => backwardsAll es ++ [(k, backwards t)]
termination_by structural es => es

end

theorem backwards_value {v : Tree} (h : v.isTable = false) : v.backwards = v := by
  cases v with
  | table => cases h
  | _ => rfl

theorem reorders_backwardsAll (h : ∀ x ∈ es, Reorders x.2 x.2.backwards) (before after : Entries) :
    Reorders (.table (before ++ (es ++ after))) (.table (before ++ (backwardsAll es ++ after))) := by
  induction es generalizing before after with
  | nil => exact .refl _
  | cons x es ih =>
    obtain ⟨k, t⟩ := x
    obtain ⟨ht, hes⟩ := List.forall_mem_cons.mp h
    have hentry : Reorders (.table (before ++ (k, t) :: (es ++ after))) (.table (before ++ (k, t.backwards) :: (es ++ after))) :=
      .entry before (es ++ after) k ht
    have hrest := ih hes before ((k, t.backwards) :: after)
    simp only [backwardsAll, List.append_assoc, List.cons_append, List.nil_append]
    exact hentry.trans ((reorders_past _ es before after).trans hrest)

theorem reorders_backwards (t : Tree) : Reorders t t.backwards := by
  induction t using induction_entries with
  | table es ih => simpa [backwards] using reorders_backwardsAll ih [] []
  | value v hv =>
    rw [backwards_value hv]
    exact .refl v

/-- Tables stay tables. -/
theorem isTable_of_reorders {t u : Tree} (h : Reorders t u) : t.isTable = u.isTable := by
  induction h with
  | symm _ ih => exact ih.symm
  | trans _ _ ih ih' => exact ih.trans ih'
  | _ => rfl

theorem table_of_reorders {u : Tree} (h : Reorders (.table es) u) : ∃ fs, u = .table fs := by
  have hu := isTable_of_reorders h
  cases u with
  | table fs => exact ⟨fs, rfl⟩
  | _ => cases hu

end Toml.Tree

namespace Settings

open Toml (Tree Entries)
open Toml.Tree (Reorders)

inductive Assigns : Text → Tree → Text → Tree → Prop
  | value {key : Text} {v : Tree} : v.isTable = false → Assigns key v key v
  | entry {key k k' : Text} {t v : Tree} {es : Entries} : (k, t) ∈ es → Assigns (dotted key k) t k' v →
      Assigns key (.table es) k' v

section

variable {key k : Text} {t u v w : Tree} {fs : Entries} {s s' : Settings}

theorem assigns_value (ht : t.isTable = false) : Assigns key t k v ↔ k = key ∧ v = t := by
  constructor
  · intro h
    cases h with
    | value => exact ⟨rfl, rfl⟩
    | entry => cases ht
  · rintro ⟨rfl, rfl⟩
    exact .value ht

theorem assigns_table : Assigns key (.table es) k v ↔ ∃ x ∈ es, Assigns (dotted key x.1) x.2 k v := by
  constructor
  · intro h
    cases h with
    | value h => cases h
    | entry hmem h => exact ⟨_, hmem, h⟩
  · rintro ⟨⟨k', t⟩, hmem, h⟩
    exact .entry hmem h

theorem assigns_cons {name : Text} :
    Assigns key (.table ((name, t) :: es)) k v ↔ Assigns (dotted key name) t k v ∨ Assigns key (.table es) k v := by
  simp only [assigns_table, List.mem_cons, exists_eq_or_imp]

/-! ## (1) Assignments have no order -/

/-- Whatever the one tree assigns, the other one assigns too. -/
def Covers (t u : Tree) : Prop := ∀ key k v, Assigns key t k v → ∃ w, Assigns key u k w ∧ Reorders v w

theorem covers_value (ht : t.isTable = false) (hu : u.isTable = false) (h : Reorders t u) : Covers t u := by
  intro key k v hv
  obtain ⟨rfl, rfl⟩ := (assigns_value ht).mp hv
  exact ⟨u, .value hu, h⟩

theorem covers_table (h : ∀ x ∈ es, ∃ y ∈ fs, y.1 = x.1 ∧ Covers x.2 y.2) : Covers (.table es) (.table fs) := by
  intro key k v hv
  obtain ⟨x, hx, hv⟩ := assigns_table.mp hv
  obtain ⟨y, hy, hname, hcovers⟩ := h x hx
  obtain ⟨w, hw, hvw⟩ := hcovers _ k v hv
  exact ⟨w, assigns_table.mpr ⟨y, hy, hname ▸ hw⟩, hvw⟩

theorem Covers.refl (t : Tree) : Covers t t := fun _ _ v hv => ⟨v, hv, .refl v⟩

theorem Covers.trans (h : Covers t u) (h' : Covers u v) : Covers t v := by
  intro key k a ha
  obtain ⟨b, hb, hab⟩ := h key k a ha
  obtain ⟨c, hc, hbc⟩ := h' key k b hb
  exact ⟨c, hc, hab.trans hbc⟩

/-- The same data assigns the same, from either side. -/
theorem covers_of_reorders (h : Reorders t u) : Covers t u ∧ Covers u t := by
  induction h with
  | refl t => exact ⟨.refl t, .refl t⟩
  | symm _ ih => exact ih.symm
  | trans _ _ ih ih' => exact ⟨ih.1.trans ih'.1, ih'.2.trans ih.2⟩
  | swap before after x y =>
    have hmem (z : Text × Tree) : z ∈ before ++ x :: y :: after ↔ z ∈ before ++ y :: x :: after :=
      (List.Perm.append_left before (.swap y x after)).mem_iff
    exact ⟨covers_table fun z hz => ⟨z, (hmem z).mp hz, rfl, .refl _⟩,
      covers_table fun z hz => ⟨z, (hmem z).mpr hz, rfl, .refl _⟩⟩
  | @entry before after k t u _ ih =>
    have half {t u : Tree} (h : Covers t u) :
        Covers (.table (before ++ (k, t) :: after)) (.table (before ++ (k, u) :: after)) := by
      refine covers_table fun z hz => ?_
      simp only [List.mem_append, List.mem_cons] at hz ⊢
      rcases hz with hz | rfl | hz
      · exact ⟨z, .inl hz, rfl, .refl _⟩
      · exact ⟨(k, u), .inr (.inl rfl), rfl, h⟩
      · exact ⟨z, .inr (.inr hz), rfl, .refl _⟩
    exact ⟨half ih.1, half ih.2⟩
  | item before after h _ =>
    exact ⟨covers_value rfl rfl (.item before after h), covers_value rfl rfl (.item before after h.symm)⟩
  | element before after h _ =>
    exact ⟨covers_value rfl rfl (.element before after h), covers_value rfl rfl (.element before after h.symm)⟩

/-! ## (2) What flattening sets -/

theorem find?_cons (x : Text × Tree) (es : Entries) (k : Text) :
    Entries.find? (x :: es) k = if x.1 = k then some x.2 else Entries.find? es k := by
  by_cases hx : x.1 = k <;> simp [Entries.find?, hx]

/-- What is put last is found. -/
theorem find?_put (es : Entries) (key k : Text) (v : Tree) :
    Entries.find? (Entries.put key v es) k = if key = k then some v else Entries.find? es k := by
  induction es with
  | nil => exact find?_cons (key, v) [] k
  | cons x es ih =>
    obtain ⟨name, t⟩ := x
    unfold Entries.put
    by_cases hname : name = key
    · rw [if_pos hname, find?_cons, find?_cons, hname]
      split <;> rfl
    · rw [if_neg hname, find?_cons, find?_cons, ih]
      by_cases hk : name = k
      · rw [if_pos hk, if_pos hk, if_neg (fun h => hname (hk.trans h.symm))]
      · rw [if_neg hk, if_neg hk]

theorem get?_set (s : Settings) (key k : Text) (v : Tree) :
    (s.set key v).get? k = if key = k then some v else s.get? k := find?_put s.values key k v

theorem add_value (hv : v.isTable = false) : add key v s = s.set key v := by
  cases v with
  | table => cases hv
  | _ => rfl

/-- The keys that a tree at `key` assigns something are set to one of the values, and all others are as before. -/
def Settles (key : Text) (t : Tree) (s s' : Settings) : Prop :=
  ∀ k, (∃ v, Assigns key t k v ∧ s'.get? k = some v) ∨ (∀ v, ¬Assigns key t k v) ∧ s'.get? k = s.get? k

theorem addAll_settles (h : ∀ x ∈ es, ∀ key s, Settles key x.2 s (add key x.2 s)) (key : Text) (s : Settings) :
    Settles key (.table es) s (addAll key es s) := by
  induction es generalizing s with
  | nil =>
    refine fun k => .inr ⟨fun v hv => ?_, rfl⟩
    obtain ⟨x, hx, -⟩ := assigns_table.mp hv
    cases hx
  | cons x es ih =>
    obtain ⟨name, t⟩ := x
    obtain ⟨ht, hes⟩ := List.forall_mem_cons.mp h
    intro k
    change _ ∨ _ ∧ (addAll key es (add (dotted key name) t s)).get? k = s.get? k
    simp only [assigns_cons]
    -- what the other entries set comes later
    rcases ih hes (add (dotted key name) t s) k with ⟨v, hv, hget⟩ | ⟨hnone, hget⟩
    · exact .inl ⟨v, .inr hv, hget⟩
    · rcases ht (dotted key name) s k with ⟨v, hv, hfirst⟩ | ⟨hnone', hfirst⟩
      · exact .inl ⟨v, .inl hv, hget.trans hfirst⟩
      · exact .inr ⟨fun v hv => hv.elim (hnone' v) (hnone v), hget.trans hfirst⟩

theorem add_settles (t : Tree) (key : Text) (s : Settings) : Settles key t s (add key t s) := by
  induction t using Tree.induction_entries generalizing key s with
  | table es ih => exact addAll_settles ih key s
  | value v hv =>
    intro k
    rw [add_value hv, get?_set]
    simp only [assigns_value hv]
    by_cases hk : key = k
    · exact .inl ⟨v, ⟨hk.symm, rfl⟩, if_pos hk⟩
    · exact .inr ⟨fun w hw => hk hw.1.symm, if_neg hk⟩

/-! ## (3) Every value can be the last one -/

theorem addAll_append (key : Text) (es fs : Entries) (s : Settings) :
    addAll key (es ++ fs) s = addAll key fs (addAll key es s) := by
  induction es generalizing s with
  | nil => rfl
  | cons x es ih =>
    obtain ⟨name, t⟩ := x
    exact ih _

/-- In a suitable order, what a tree assigns to a key is what the key is set to. -/
theorem assigned_last (h : Assigns key t k v) : ∃ u, Reorders t u ∧ ∀ s, (add key u s).get? k = some v := by
  induction h with
  | @value key v hv =>
    refine ⟨v, .refl v, fun s => ?_⟩
    rw [add_value hv, get?_set, if_pos rfl]
  | @entry key name k t v es hmem _ ih =>
    obtain ⟨u, htu, hlast⟩ := ih
    obtain ⟨before, after, rfl⟩ := List.append_of_mem hmem
    refine ⟨.table (before ++ (after ++ [(name, u)])), ?_, fun s => ?_⟩
    · have hbehind := Tree.reorders_past (name, u) after before []
      rw [List.append_nil] at hbehind
      exact .trans (.entry before after name htu) hbehind
    · change (addAll key (before ++ (after ++ [(name, u)])) s).get? k = some v
      rw [addAll_append, addAll_append]
      exact hlast _

end

/-! ## (4) When the order matters -/

/-- Whatever the order in which the entries of the tables are visited, the settings over the defaults are the same. -/
def OrderFree (es : Entries) : Prop :=
  ∀ fs, Reorders (.table es) (.table fs) → ∀ key,
    Option.Rel Reorders ((addAll [] es (withDefaults {})).get? key) ((addAll [] fs (withDefaults {})).get? key)

/-- All paths that make the same dotted key lead to the same value. -/
def Unambiguous (es : Entries) : Prop :=
  ∀ key v w, Assigns [] (.table es) key v → Assigns [] (.table es) key w → Reorders v w

theorem Unambiguous.orderFree (h : Unambiguous es) : OrderFree es := by
  intro fs hfs key
  obtain ⟨hthere, hback⟩ := covers_of_reorders hfs
  have hes : Settles [] (.table es) _ (addAll [] es (withDefaults {})) := add_settles (.table es) [] _
  have hfs : Settles [] (.table fs) _ (addAll [] fs (withDefaults {})) := add_settles (.table fs) [] _
  rcases hes key with ⟨v, hv, hget⟩ | ⟨hnone, hget⟩ <;> rcases hfs key with ⟨w, hw, hget'⟩ | ⟨hnone', hget'⟩ <;>
    rw [hget, hget']
  · obtain ⟨v', hv', hwv⟩ := hback [] key w hw
    exact .some ((h key v v' hv hv').trans hwv.symm)
  · obtain ⟨w, hw, -⟩ := hthere [] key v hv
    exact absurd hw (hnone' w)
  · obtain ⟨v, hv, -⟩ := hback [] key w hw
    exact absurd hv (hnone v)
  · cases (withDefaults {}).get? key with
    | none => exact .none
    | some d => exact .some (.refl d)

/-- Each value that is assigned to a key is what some order sets it to, so all orders do. -/
theorem OrderFree.get? {key : Text} {v : Tree} (h : OrderFree es) (hv : Assigns [] (.table es) key v) :
    ∃ w, (addAll [] es (withDefaults {})).get? key = some w ∧ Reorders w v := by
  obtain ⟨u, hu, hlast⟩ := assigned_last hv
  obtain ⟨fs, rfl⟩ := Tree.table_of_reorders hu
  have hrel := h fs hu key
  rw [show (addAll [] fs (withDefaults {})).get? key = some v from hlast _] at hrel
  generalize (addAll [] es (withDefaults {})).get? key = found at hrel ⊢
  cases hrel with
  | some hwv => exact ⟨_, rfl, hwv⟩

theorem OrderFree.unambiguous (h : OrderFree es) : Unambiguous es := by
  intro key v w hv hw
  obtain ⟨a, ha, hav⟩ := h.get? hv
  obtain ⟨b, hb, hbw⟩ := h.get? hw
  obtain rfl : a = b := Option.some.inj (ha.symm.trans hb)
  exact hav.symm.trans hbw

/-- The settings of a document are the same in every order of the entries of its tables if and only if all paths
    of the document that make the same dotted key lead to the same value. -/
theorem order_irrelevant_iff (es : Entries) : OrderFree es ↔ Unambiguous es :=
  ⟨OrderFree.unambiguous, Unambiguous.orderFree⟩

/-- The same data is the same integer. -/
theorem int_eq_of_reorders {key : Text} {t u : Tree} (h : Reorders t u) (s s' : Settings) (ht : s.get? key = some t)
    (hu : s'.get? key = some u) : s.int key = s'.int key := by
  induction h generalizing s s' with
  | symm _ ih => exact (ih s' s hu ht).symm
  | @trans t u v _ _ ih ih' =>
    have hmid : (s.set key u).get? key = some u := by rw [get?_set, if_pos rfl]
    exact (ih s _ ht hmid).trans (ih' _ s' hmid hu)
  | _ => simp [int, ht, hu]

theorem OrderFree.int_eq {fs : Entries} (h : OrderFree es) (hfs : Reorders (.table es) (.table fs)) (key : Text) :
    (addAll [] es (withDefaults {})).int key = (addAll [] fs (withDefaults {})).int key := by
  have hrel := h fs hfs key
  cases hes : (addAll [] es (withDefaults {})).get? key <;> cases hfs : (addAll [] fs (withDefaults {})).get? key <;>
    rw [hes, hfs] at hrel <;> cases hrel
  · simp [int, hes, hfs]
  · exact int_eq_of_reorders ‹_› _ _ hes hfs

/-- All paths of this document make the same key. The longest one leads to another value than the others. -/
def clashing : Text :=
  "a = \x7bb = \x7bc = \x7bd = \x7be = \x7bf = \x7bg = 2\x7d, \"f.g\" = 1\x7d, \"e.f.g\" = 1\x7d, \"d.e.f.g\" = 1\x7d, " ++
  "\"c.d.e.f.g\" = 1\x7d, \"b.c.d.e.f.g\" = 1\x7d\n\"a.b.c.d.e.f.g\" = 1\n"

/-- The document sets its key to 1, and with the entries of its tables the other way round to 2. -/
theorem clashing_settings :
    (Toml.read? clashing).map (fun es => (addAll [] es (withDefaults {})).int "a.b.c.d.e.f.g") = some 1 ∧
      (Toml.read? clashing).map (fun es => (addAll [] (Tree.backwardsAll es) (withDefaults {})).int "a.b.c.d.e.f.g") =
        some 2 := by
  decide +kernel

theorem order_matters : ∃ es, Toml.read? clashing = some es ∧ ¬OrderFree es := by
  obtain ⟨hone, htwo⟩ := clashing_settings
  obtain ⟨es, hes, hone⟩ := Option.map_eq_some_iff.mp hone
  rw [hes, Option.map_some, Option.some.injEq] at htwo
  refine ⟨es, hes, fun hfree => ?_⟩
  have hsame := hfree.int_eq (Tree.reorders_backwards (.table es)) "a.b.c.d.e.f.g"
  rw [hone, htwo] at hsame
  exact absurd hsame (by decide)

end Settings

end Scriptlet
