/-
  Scriptlet.Proofs.Requests — machines under any sequence of requests.

  A `History` is a machine together with the actions that its host has taken out of the queue, or has
  lost with it, and the number of replies that the machine accepted. So `History.log` has all
  actions that were ever put into the queue, in order, and it only grows (`History.log_next`).

  (1) What every tick keeps, a step keeps (`Kept.step`).
  (2) Loading code leaves all but the program as it is if it fails, and otherwise replaces a unit
      or adds one (`loadNodes_becomes`).
-/

import Scriptlet.Proofs.Discipline

namespace Scriptlet

namespace Machine

/-! ## (1) Steps -/

/-- Kept by whatever a machine does in a step. It does nothing while it awaits a reply. -/
structure Kept (P : Machine → Prop) : Prop where
  exec : ∀ {m m' : Machine} {f : Frame} {rest : List Frame} {code : Block} {i : Instr}, P m → m.awaiting = false →
    m.frames = f :: rest → m.program.block? f.block = some code → code[f.pc]? = some i →
    Does m { f with pc := f.pc + 1 } rest code.length f.pc i m' → P m'
  /-- An instruction that fails has taken from its frame. -/
  spend : ∀ {m : Machine} {f g : Frame} {rest : List Frame}, P m → m.frames = f :: rest → Spent { f with pc := f.pc + 1 } g →
    P (m.withFrames (g :: rest))
  /-- A frame is left, and the one below it may be given a value that it had. -/
  drop : ∀ {m : Machine} {f : Frame} {rest : List Frame}, P m → m.frames = f :: rest → P (m.withFrames rest)
  deliver : ∀ {m : Machine} {f : Frame} {rest : List Frame} {v : Value}, P m → m.frames = f :: rest →
    m.frameResult f = .ok v → P (m.withFrames (Machine.deliver v rest))
  terminate : ∀ {m : Machine}, P m → P m.terminate
  abort : ∀ {m : Machine}, P m → P m.abort
  halt : ∀ {m : Machine} (h : Halt), P m → m.awaiting = false → P (m.halt h)

variable {m : Machine}

section

variable {P : Machine → Prop} {m' : Machine} {c : Signals}

theorem Kept.leave (hP : Kept P) (hm : P m) {f : Frame} {rest : List Frame} (hf : m.frames = f :: rest)
    (h : m.leave f rest = .ok m') : P m' := by
  obtain ⟨fs, hfs, rfl⟩ := leave_ok.mp h
  have hkept : P (m.withFrames fs) := by
    rcases hfs with ⟨-, rfl⟩ | ⟨-, v, hv, rfl⟩
    · exact hP.drop hm hf
    · exact hP.deliver hm hf hv
  split
  · exact hP.terminate hkept
  · exact hkept

theorem Kept.ticks (hP : Kept P) (n : Nat) (hm : P m) (hw : m.awaiting = false) : P (Machine.ticks c n m).2 := by
  induction n generalizing m c with
  | zero => exact hm
  | succ n ih =>
    unfold Machine.ticks
    cases ht : m.tick (c 0) with
    | go m' =>
      cases turns_of_tick ht with
      | went _ _ hf hb hi he hw' => exact ih (hP.exec hm hw hf hb hi (exec_ok he)) hw'
    | pause m' =>
      cases turns_of_tick ht with
      | idle => exact hP.terminate hm
      | left _ _ hf _ _ hl => exact hP.leave hm hf hl
      | asked _ _ hf hb hi he _ => exact hP.exec hm hw hf hb hi (exec_ok he)
    | stop m' h =>
      cases turns_of_tick ht with
      | signalled => exact hP.halt _ (hP.abort hm) hw
      | lost _ _ hf => exact hP.halt _ (hP.drop hm hf) hw
      | failed _ _ hf _ _ he => exact hP.halt _ (hP.spend hm hf (exec_error he)) hw
      | _ => exact hP.halt _ hm hw

theorem Kept.step (hP : Kept P) (hm : P m) : P (m.step c).2 := by
  unfold Machine.step
  cases hh : m.halted with
  | some h => exact hm
  | none =>
    cases hw : m.awaiting with
    | true => exact hm
    | false => exact hP.ticks _ hm hw

/-- An instruction puts actions behind those in the queue. -/
theorem Does.queue {f : Frame} {rest : List Frame} {stop pc : Nat} {i : Instr} (h : Does m f rest stop pc i m') :
    m.queue <+: m'.queue := by
  cases h with
  | construct | ask | loadField => exact List.prefix_append _ _
  | _ => exact List.prefix_rfl

theorem kept_queue (q : List Action) : Kept fun m => q <+: m.queue where
  exec h _ _ _ _ hd := h.trans hd.queue
  spend h _ _ := h
  drop h _ := h
  deliver h _ _ := h
  terminate {m} h := by
    unfold Machine.terminate
    split
    · exact h
    · exact h.trans (List.prefix_append _ _)
  abort h := h
  halt _ h _ := h

end

/-! ## (2) Loading -/

theorem dropObjects_all (m : Machine) (ids : List Int) :
    m.dropObjects ids = { m with
      registry := ids.foldl Registry.drop m.registry, queue := m.queue ++ ids.map Action.destruct } := by
  induction ids generalizing m with
  | nil => rw [List.map_nil, List.append_nil]; rfl
  | cons id ids ih =>
    rw [dropObjects, List.foldl_cons, ← dropObjects, ih, List.map_cons]
    simp [put]

def amended (name : Text) (f : List Int → List Int) (us : List CodeUnit) : List CodeUnit :=
  us.map fun u => if u.name = name then { u with objects := f u.objects } else u

def forgotten (name : Text) (us : List CodeUnit) : List CodeUnit := amended name (fun _ => []) us

inductive Becomes (m : Machine) (name : Text) (ns : List Node) : Machine → Prop
  | refused : m.halted.isSome = true ∨ m.awaiting = true → Becomes m name ns m
  | failedAgain {u : CodeUnit} {e : LowerError} {p : Program} : m.halted = none → m.awaiting = false →
      m.unit? name = some u → m.program.recompile u.block ns = (.error e, p) → Becomes m name ns { m with program := p }
  | failedNew {e : LowerError} {p : Program} : m.halted = none → m.awaiting = false → m.unit? name = none →
      m.program.compile ns = (.error e, p) → Becomes m name ns { m with program := p }
  | again {u : CodeUnit} {p : Program} : m.halted = none → m.awaiting = false → m.unit? name = some u →
      m.program.recompile u.block ns = (.ok (), p) →
      Becomes m name ns (enter { m with
        program := p, units := forgotten name m.units, registry := u.objects.foldl Registry.drop m.registry
        queue := m.queue ++ u.objects.map Action.destruct } name u.block)
  | new {id : Nat} {p : Program} : m.halted = none → m.awaiting = false → m.unit? name = none →
      m.program.compile ns = (.ok id, p) →
      Becomes m name ns (enter { m with program := p, units := m.units ++ [⟨name, id, []⟩] } name id)

theorem loadNodes_becomes (m : Machine) (name : Text) (ns : List Node) : Becomes m name ns (m.loadNodes name ns).2 := by
  cases hh : m.halted with
  | some h =>
    unfold loadNodes
    rw [hh]
    exact .refused (.inl (by rw [hh]; rfl))
  | none =>
    cases hw : m.awaiting with
    | true =>
      unfold loadNodes
      rw [hh, hw]
      exact .refused (.inr hw)
    | false =>
      cases hu : m.unit? name with
      | some u =>
        rcases hp : m.program.recompile u.block ns with ⟨_ | ⟨⟩, p⟩
        · have e : (m.loadNodes name ns).2 = { m with program := p } := by
            unfold loadNodes
            simp only [hh, hw, hu, hp]
            rfl
          rw [e]
          exact .failedAgain hh hw hu hp
        · have e : (m.loadNodes name ns).2 = enter { m with
              program := p, units := forgotten name m.units, registry := u.objects.foldl Registry.drop m.registry
              queue := m.queue ++ u.objects.map Action.destruct } name u.block := by
            have hload : m.loadNodes name ns = (.ok (), _) := loadNodes_again hh hw hu hp
            rw [hload, dropObjects_all]
            rfl
          rw [e]
          exact .again hh hw hu hp
      | none =>
        rcases hp : m.program.compile ns with ⟨_ | id, p⟩
        · have e : (m.loadNodes name ns).2 = { m with program := p } := by
            unfold loadNodes
            simp only [hh, hw, hu, hp]
            rfl
          rw [e]
          exact .failedNew hh hw hu hp
        · have e : (m.loadNodes name ns).2 =
              enter { m with program := p, units := m.units ++ [⟨name, id, []⟩] } name id := by
            unfold loadNodes
            simp only [hh, hw, hu, hp]
            rfl
          rw [e]
          exact .new hh hw hu hp

/-- What the compiler keeps is kept. -/
theorem Becomes.invariant {I : Program → Prop} (hI : Lower.Invariant I) {m' : Machine} {name : Text} {ns : List Node}
    (hb : Becomes m name ns m') (hm : I m.program) : I m'.program := by
  cases hb with
  | refused => exact hm
  | @failedAgain u _ _ _ _ _ hp | @again u _ _ _ _ hp =>
    have hq := hI.recompile hm u.block ns
    rwa [hp] at hq
  | failedNew _ _ _ hp | new _ _ _ hp =>
    have hq := hI.compile hm ns
    rwa [hp] at hq

/-- A source that cannot be parsed changes nothing. -/
theorem load_becomes (m : Machine) (name src : Text) :
    (m.load name src).2 = m ∨ ∃ ns, Becomes m name ns (m.load name src).2 := by
  unfold load
  cases Parse.source src with
  | error e => exact .inl rfl
  | ok ns => exact .inr ⟨ns, loadNodes_becomes m name ns⟩

theorem Becomes.queue {m m' : Machine} {name : Text} {ns : List Node} (h : Becomes m name ns m') : m.queue <+: m'.queue := by
  cases h with
  | again => exact List.prefix_append _ _
  | _ => exact List.prefix_rfl

/-! ## Requests -/

inductive Initial : Machine → Prop
  | new (o : Options) : Initial (Machine.new o)
  | ofImage {i : Image} {o : Options} {m : Machine} : Machine.ofImage i o = .ok m → Initial m

theorem ofImage_ok {i : Image} {o : Options} (h : ofImage i o = .ok m) :
    ∃ p, i.toProgram = .ok p ∧ m = { ofProgram p o with units := [⟨imageUnit, i.entry, []⟩] }.enter imageUnit i.entry := by
  unfold ofImage at h
  cases hp : i.toProgram with
  | error e =>
    rw [hp] at h
    cases h
  | ok p =>
    rw [hp] at h
    exact ⟨p, rfl, (Except.ok.inj h).symm⟩

theorem ofProgram_queue (p : Program) (o : Options) : (ofProgram p o).queue = [] := by
  rw [ofProgram_eq]

theorem ofProgram_awaiting (p : Program) (o : Options) : (ofProgram p o).awaiting = false := by
  rw [ofProgram_eq]

/-- A machine starts without actions, and awaits nothing. -/
theorem Initial.quiet (h : Initial m) : m.queue = [] ∧ m.awaiting = false := by
  cases h with
  | new o => exact ⟨ofProgram_queue {} o, ofProgram_awaiting {} o⟩
  | ofImage h =>
    obtain ⟨p, -, rfl⟩ := ofImage_ok h
    exact ⟨ofProgram_queue p _, ofProgram_awaiting p _⟩

inductive Request where
  | load (name src : Text)
  | loadNodes (name : Text) (program : List Node)
  | step (c : Signals)
  | drain
  | resume (v : Option Value)
  | abort
  | reset

namespace Request

def apply (m : Machine) : Request → Machine
  | .load name src => (m.load name src).2
  | .loadNodes name program => (m.loadNodes name program).2
  | .step c => (m.step c).2
  | .drain => m.drain.2
  | .resume v => (m.resume v).2
  | .abort => m.abort
  | .reset => m.reset

def empties : Request → Bool
  | .drain | .reset => true
  | _ => false

/-- The request neither gives a reply nor resets the machine. -/
def isIdle : Request → Bool
  | .resume _ | .reset => false
  | _ => true

def replies (m : Machine) : Request → Bool
  | .resume v => (m.resume v).1.isOk
  | _ => false

end Request

/-- What requests make of a machine. A source that cannot be parsed and a reply that is not awaited change nothing. -/
inductive Changes (m : Machine) : Request → Machine → Prop
  | unread {name src : Text} : Changes m (.load name src) m
  | read {name src : Text} {ns : List Node} {m' : Machine} : Becomes m name ns m' → Changes m (.load name src) m'
  | loaded {name : Text} {ns : List Node} {m' : Machine} : Becomes m name ns m' → Changes m (.loadNodes name ns) m'
  | stepped (c : Signals) : Changes m (.step c) (m.step c).2
  | drained : Changes m .drain m.drain.2
  | unawaited {v : Option Value} : m.awaiting = false → Changes m (.resume v) m
  | resumed {v : Option Value} : m.awaiting = true →
      Changes m (.resume v) { m with awaiting := false, frames := deliver (v.getD .none) m.frames }
  | aborted : Changes m .abort m.abort
  | reset : Changes m .reset m.reset

theorem Request.changes (r : Request) {m k : Machine} (hk : r.apply m = k) : Changes m r k := by
  subst hk
  cases r with
  | load name src =>
    change Changes m _ (m.load name src).2
    unfold Machine.load
    cases Parse.source src with
    | error e => exact .unread
    | ok ns => exact .read (loadNodes_becomes m name ns)
  | loadNodes name ns => exact .loaded (loadNodes_becomes m name ns)
  | step c => exact .stepped c
  | drain => exact .drained
  | resume v =>
    change Changes m _ (m.resume v).2
    cases hw : m.awaiting with
    | false =>
      rw [resume_refused hw]
      exact .unawaited hw
    | true =>
      rw [resume_eq hw]
      exact .resumed hw
  | abort => exact .aborted
  | reset => exact .reset

structure History where
  machine : Machine
  /-- The actions that were taken out of the queue, or lost with it. -/
  taken : List Action := []
  replies : Nat := 0

namespace History

def log (h : History) : List Action := h.taken ++ h.machine.queue

def next (h : History) (r : Request) : History where
  machine := r.apply h.machine
  taken := if r.empties then h.log else h.taken
  replies := h.replies + (r.replies h.machine).toNat

def run (h : History) (rs : List Request) : History := rs.foldl next h

def after (m : Machine) (rs : List Request) : History := run { machine := m } rs

/-- No action is ever taken back. -/
theorem log_next (h : History) (r : Request) : h.log <+: (h.next r).log := by
  have waits {k : Machine} (hk : h.machine.queue <+: k.queue) : h.log <+: h.taken ++ k.queue :=
    (List.prefix_append_right_inj _).mpr hk
  unfold log next
  generalize hk : r.apply h.machine = k
  cases r.changes hk with
  | read hb | loaded hb => exact waits hb.queue
  | stepped c => exact waits ((kept_queue h.machine.queue).step List.prefix_rfl)
  | drained | reset => exact List.prefix_append _ _
  | _ => exact waits List.prefix_rfl

theorem run_append (h : History) (rs qs : List Request) : h.run (rs ++ qs) = (h.run rs).run qs := List.foldl_append

theorem after_append (m : Machine) (rs qs : List Request) : after m (rs ++ qs) = (after m rs).run qs := run_append _ rs qs

theorem after_snoc (m : Machine) (rs : List Request) (r : Request) : after m (rs ++ [r]) = (after m rs).next r :=
  after_append m rs [r]

end History

end Machine

end Scriptlet
