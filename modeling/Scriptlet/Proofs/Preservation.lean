/-
  Scriptlet.Proofs.Preservation — compiled programs keep their meaning.

  (1) A call puts a frame on top, runs the body of the function there, and gives its value to the
      caller (`enter_follows`, `outcome_follows`). By induction on the room for frames, the machine goes
      along with every call, and fails as the evaluation does where the room is used up (`calls_follow`).
  (2) A machine in front of the code of a program does what the program means, and then quits
      (`Mirrors.means`). A fresh machine into which a program was loaded is one (`run_means`).
-/

import Scriptlet.Proofs.Simulation
import Scriptlet.Proofs.Starting

namespace Scriptlet.Machine

section

variable {keep : Nat → Prop} {p : Program} {σ : Setting} {w : Realm} {m : Machine} {s : List Action} {f : Frame}
  {rest : List Frame} {os : List Operand} {c : Closure} {gs : List (List Field)}

/-! ## (1) Calls -/

/-- A function is left: its caller gets the result, and the actions so far are handed over. -/
theorem Mirrors.left {g : Frame} {u : Value} (h : Mirrors keep p σ m s w) (hs : Standing p f (g :: rest) [] os [] m)
    (hf : f.returns = true) (hu : ∀ pc, m.frameResult (f.placed pc os []) = .ok u) :
    ∃ m' s', m.onwards σ s = m'.onwards σ s' ∧ Mirrors keep p σ m' s' w ∧ m'.frames = g.pushValue u :: rest := by
  obtain ⟨pc, hm, ha⟩ := id hs
  obtain ⟨code, hb, hi⟩ := ha.ended
  rw [← h.program] at hb
  have hl : m.leave (f.placed pc os []) (g :: rest) = .ok (m.withFrames (g.pushValue u :: rest)) :=
    leave_ok.mpr ⟨_, .inr ⟨hf, u, hu pc, rfl⟩, rfl⟩
  have ht := tick_end h.running hm hb hi
  rw [hl] at ht
  obtain ⟨hg, hrest⟩ := hs.every h.known pc
  have every := every_leave hl h.known.scopes hg hrest
  refine ⟨_, _, run_left h.ready ht h.quiet, { h with
    quitting := rfl, log := ?_, quiet := (by simp [drain]), known := ⟨every.scopes, every.frames⟩ }, rfl⟩
  rw [← h.log]
  simp [drain, withFrames]

/-- A function is left, but there is no value where one is needed. -/
theorem Mirrors.lost {o : Operand} (h : Mirrors keep p σ m s w) (hs : Standing p f rest [] (o :: os) [] m)
    (hf : f.returns = true) (hr : f.result = none) (ho : o.value = none) :
    FailsWith .unknownIdent w (m.onwards σ s) := by
  obtain ⟨pc, hm, ha⟩ := hs
  obtain ⟨code, hb, hi⟩ := ha.ended
  rw [← h.program] at hb
  have hl : m.leave (f.placed pc (o :: os) []) rest = .error (.unbound (m.identName o.ident)) := by
    unfold leave
    simp only [hf, if_true, frameResult, hr, popResult, Frame.pop?, resolved, ho]
    rfl
  have ht := tick_end h.running hm hb hi
  rw [hl] at ht
  have hrun : m.onwards σ s = _ := run_stop h.ready ht s
  rw [hrun]
  exact ⟨⟨_, _, _, _, rfl, rfl⟩, h.endsIn rfl rfl⟩

theorem callScope_rename {params : List Text} {ids : List Nat} (h : Mirrors keep p σ m s w)
    (hids : p.Numbers params ids) (hc : c.params = ids.map fun id : Nat => (id : Int)) (name : Text) (us : List Value) :
    (m.callScope name c us).1 = (w.scopes.add name c.scopes).1 ∧
      (m.callScope name c us).2.rename .anyBlock = (params.zip (us.map (Value.rename .anyBlock))).foldl
        (fun s (x : Text × Value) => s.bind (w.scopes.add name c.scopes).1 (σ.ids x.1) x.1 (some x.2))
        (w.scopes.add name c.scopes).2 := by
  have fold {i : Nat} : ∀ (ids : List Nat) (params : List Text) (us : List Value) (t : Scopes), p.Numbers params ids →
      (((ids.map fun id : Nat => (id : Int)).zip us).foldl (fun t (x : Int × Value) => t.bind i x.1 (m.name x.1) (some x.2))
          t).rename .anyBlock
        = (params.zip (us.map (Value.rename .anyBlock))).foldl (fun t (x : Text × Value) => t.bind i (σ.ids x.1) x.1 (some x.2))
          (t.rename .anyBlock) := by
    intro ids
    induction ids with
    | nil =>
      intro params us t hn
      cases params with
      | nil => rfl
      | cons q qs => simp [Program.Numbers] at hn
    | cons id ids ih =>
      intro params us t hn
      cases params with
      | nil => simp [Program.Numbers] at hn
      | cons q qs =>
        simp only [Program.Numbers, List.map_cons, List.cons.injEq] at hn
        cases us with
        | nil => rfl
        | cons u us =>
          simp only [List.map_cons, List.zip_cons_cons, List.foldl_cons]
          rw [ih qs us _ hn.2, Scopes.bind_rename Renaming.anyBlock_faithful, h.name hn.1, h.numbers q id hn.1]
          rfl
  rw [← h.scopes, Scopes.add_rename]
  refine ⟨rfl, ?_⟩
  unfold callScope
  rw [hc]
  exact fold ids params us _ hids

/-- A function that was entered comes to its end, and its caller goes on with the value of the call. -/
theorem outcome_follows {g : Frame} {e : Eval.Ended} (hf : f.returns = true) (hr : f.result = none)
    (h : AtEnd keep p σ f (g :: rest) e w m s) :
    Follows σ (Eval.outcome e) w m s fun v w' m' s' => Mirrors keep p σ m' s' w' ∧ ∃ u : Value,
      u.rename .anyBlock = v ∧ m'.frames = g.pushValue u :: rest := by
  cases e with
  | returned v =>
    obtain ⟨h, u, os, hu, hs⟩ := h
    obtain ⟨m', s', e, h', hm'⟩ := h.left hs hf fun _ => rfl
    exact .from e (.pure ⟨h', u, hu, hm'⟩)
  | fell last =>
    obtain ⟨h, os, htop, hs⟩ := h
    cases last with
    | none =>
      obtain rfl := htop
      obtain ⟨m', s', e, h', hm'⟩ := h.left hs hf fun _ => frameResult_ok.mpr (.inr ⟨hr, .inl ⟨rfl, rfl⟩⟩)
      exact .from e (.pure ⟨h', .none, rfl, hm'⟩)
    | some v =>
      obtain ⟨⟨ov, oi⟩, os, rfl, ho⟩ := htop
      have follows := Follows.the (k := pure) ho (R := fun v w' m' s' => Mirrors keep p σ m' s' w' ∧ ∃ u : Value,
        u.rename .anyBlock = v ∧ m'.frames = g.pushValue u :: rest) (fun u hu => ?_) fun hn => h.lost hs hf hr hn
      · rwa [bind_pure] at follows
      · simp only at hu
        subst hu
        obtain ⟨m', s', e, h', hm'⟩ := h.left hs hf fun _ => frameResult_ok.mpr (.inr ⟨hr, .inr ⟨oi, os, rfl⟩⟩)
        exact .from e (.pure ⟨h', u, rfl, hm'⟩)

theorem call_error {k : Marked} {as : List Operand} {us : List Value}
    {i : Option Int} {cl : FaultClass} (h : Mirrors keep p σ m s w)
    (hs : Standing p f rest (Marked.op .call as.length ++ k) (as.reverse ++ ⟨some (.closure c), i⟩ :: os) gs m)
    (hv : Valued as us) (he : ∀ g : Frame, ∃ e, m.callClosure g rest c i us = .error e ∧ e.fault.toClass = cl) :
    FailsWith cl w (m.onwards σ s) := by
  refine h.fails hs fun stop pc _ => ?_
  obtain ⟨e, he, hc⟩ := he (f.placed (pc + 1) os gs)
  exact ⟨e, bind_fails (popValues_ok.mpr ⟨as, _, rfl, rfl, hv, rfl⟩) (bind_fails (popOperand_ok.mpr ⟨os, rfl, rfl⟩) he), hc⟩

section

variable {k : Marked} {as : List Operand} {us : List Value} {i : Option Int}

/-- A function is entered: the machine stands in front of its body, in a frame with the scope of the call. -/
theorem enter_follows {fn : FunctionBody} {b : Nat} {ids : List Nat} {name : Text} (h : Mirrors keep p σ m s w)
    (hs : Standing p f rest (Marked.op .call as.length ++ k) (as.reverse ++ ⟨some (.closure c), i⟩ :: os) gs m)
    (hv : Valued as us) (hlen : us.length = c.params.length) (hroom : rest.length + 1 < σ.limit)
    (hb : c.proto.block = b) (hids : p.Numbers fn.params ids) (hc : c.params = ids.map fun id : Nat => (id : Int))
    (hbody : p.Holds keep b fn.body) (hname : (i.map m.name).getD "<anonymous>" = name) :
    Follows σ (Eval.enter σ (c.rename .anyBlock) name fn.params (us.map (Value.rename .anyBlock))) w m s
      fun scope w' m' s' => Mirrors keep p σ m' s' w' ∧ ∃ (pc : Nat) (callee : Frame) (code : Marked),
        p.Ahead f.block pc k ∧ callee.scope = scope ∧ callee.returns = true ∧ callee.result = none ∧
          LoweredAll keep p 0 fn.body code ∧ Standing p callee (f.placed pc os gs :: rest) code [] [] m' := by
  obtain ⟨stop, pc, e, hk, -, does⟩ := hs.goes (σ := σ) (s := s) h.program h.ready h.running
    (fun stop pc _ => .invoke rfl hv hlen (h.limit ▸ hroom)) fun _ _ => rfl
  have every := h.still_known hs does (by simp)
  obtain ⟨hscope, hscopes⟩ := callScope_rename h hids hc name us
  obtain ⟨-, sl, hsl, -, hl⟩ := hbody
  subst hname
  let callee : Frame :=
    { name := (i.map m.name).getD "<anonymous>", unit := f.unit, block := c.proto.block
      scope := (m.callScope ((i.map m.name).getD "<anonymous>") c us).1, returns := true }
  exact ⟨_, s, e, { h with scopes := hscopes, known := every }, pc + 1, callee, sl.marked, hk, hscope, rfl, rfl, hl, 0, rfl, b, sl, hb, hsl, rfl⟩

theorem length_params_rename (ρ : Renaming) (c : Closure) : (c.rename ρ).params.length = c.params.length :=
  List.length_map _

/-- The machine goes along with calls, as deep as there is room for frames. -/
theorem calls_follow (hp : ∀ log, (σ.host log).isPlain = true) {room : Nat} (hroom : room = σ.limit - (rest.length + 1)) :
    CallsFollow keep p σ f rest (Eval.call σ room) := by
  induction room generalizing f rest with
  | zero =>
    intro w m s k os gs as us c i h hs hv
    unfold Eval.call
    rw [List.length_map, length_params_rename]
    split
    · rename_i ha
      exact .throw (call_error h hs hv fun g => ⟨⟨.argumentCount c.params.length us.length, g⟩, if_pos ha, rfl⟩)
    · rename_i ha
      refine .throw (call_error h hs hv fun g => ⟨⟨.frameLimit m.limit, g⟩, ?_, rfl⟩)
      unfold callClosure
      rw [if_neg ha, if_pos (by rw [h.limit]; omega)]
  | succ room ih =>
    intro w m s k os gs as us c i h hs hv
    unfold Eval.call
    rw [List.length_map, length_params_rename]
    split
    · rename_i ha
      exact .throw (call_error h hs hv fun g => ⟨⟨.argumentCount c.params.length us.length, g⟩, if_pos ha, rfl⟩)
    · rename_i ha
      have known : Known keep p w c := (hs.every h.known 0).1.operands ⟨some (.closure c), i⟩ (by simp)
      obtain ⟨fn, j, b, ids, -, hj, hfn, hb, hids, hps, hreg, hbody⟩ := known
      have found : (w.functions.lookup (c.rename .anyBlock).ref).getD default = fn := by
        rw [show (c.rename .anyBlock).ref = _ from hj, hfn]
        rfl
      refine .get ?_
      simp only [found]
      refine .bind (enter_follows h hs hv (not_not.mp ha) (by omega) hb hids hps hbody rfl)
        fun scope w₁ m₁ s₁ ⟨h₁, pc, callee, code, hk, hscope, hret, hres, hl, hs₁⟩ => ?_
      subst hscope
      have inner : CallsFollow keep p σ callee (f.placed pc os gs :: rest) (Eval.call σ room) :=
        ih (by rw [List.length_cons]; omega)
      refine .bind (statements_follow hp inner hreg hl rfl h₁ hs₁) fun ended w₂ m₂ s₂ atEnd => ?_
      refine (outcome_follows hret hres atEnd).imp fun v w₃ m₃ s₃ ⟨h₃, u, hu, hm₃⟩ => ?_
      exact ⟨h₃, u, hu, pc, hm₃, hk⟩

end

/-! ## (2) Programs -/

/-- A run comes to the same end as an evaluation, with the same actions and global variables. -/
def Means (r : Except FaultClass Unit × Realm) (run : Option RunError × Machine × List Action) : Prop :=
  match r with
  | (.ok _, w) => run.1 = none ∧ EndsIn w run
  | (.error c, w) => FailsWith c w run

/-- The last frame is left: the machine asks to quit, and the run is over. -/
theorem Mirrors.quits (h : Mirrors keep p σ m s w) (hs : Standing p f [] [] os [] m) (hf : f.returns = false) :
    (m.onwards σ s).1 = none ∧ EndsIn { w with log := w.log ++ [.quit] } (m.onwards σ s) := by
  obtain ⟨pc, hm, ha⟩ := hs
  obtain ⟨code, hb, hi⟩ := ha.ended
  rw [← h.program] at hb
  have hl : m.leave (f.placed pc os []) [] = .ok (m.withFrames []).terminate :=
    leave_ok.mpr ⟨[], .inl ⟨hf, rfl⟩, rfl⟩
  have hquit : (m.withFrames []).terminate = { m with frames := [], quitting := true, queue := m.queue ++ [.quit] } := by
    unfold terminate
    rw [if_neg (by rw [show (m.withFrames []).quitting = _ from h.quitting]; simp)]
    rfl
  have ht := tick_end h.running hm hb hi
  rw [hl, hquit] at ht
  have hr : m.onwards σ s = _ := run_quit h.ready ht rfl h.quiet
  rw [hr]
  refine ⟨rfl, ?_, ?_⟩
  · change (s ++ (m.queue ++ [Action.quit]) ++ []).map _ = _
    rw [List.append_nil, ← List.append_assoc, List.map_append, h.log]
    rfl
  · rw [← h.scopes, Scopes.table_rename]
    rfl

/-- A machine that stands in front of the code of a program, with no other frame, does what the program means. -/
theorem Mirrors.means {items : List Node} {c : Marked} (hp : ∀ log, (σ.host log).isPlain = true)
    (hr : Node.everyNode Node.isRegular items = true) (hl : LoweredAll keep p 0 items c) (h : Mirrors keep p σ m s w)
    (hs : Standing p f [] c [] [] m) (hf : f.returns = false) (hscope : f.scope = 0) :
    Means (Eval.result (Eval.program σ items) w) (m.onwards σ s) := by
  have calls : CallsFollow keep p σ f [] (Eval.call σ (σ.limit - 1)) := calls_follow hp rfl
  have empty : Top none [] := rfl
  have follows := statements_follow hp calls hr hl empty h hs
  rw [hscope] at follows
  unfold Eval.program
  rw [Eval.result_bind]
  unfold Follows at follows
  rcases hres : Eval.result (Eval.statements σ (Eval.call σ (σ.limit - 1)) 0 none items) w with ⟨c | ended, v⟩
  · rw [hres] at follows
    exact follows
  · rw [hres] at follows
    obtain ⟨m', s', e, atEnd⟩ := follows
    rw [e]
    cases ended with
    | fell last =>
      obtain ⟨h', os, -, hs'⟩ := atEnd
      exact h'.quits hs' hf
    | returned u =>
      obtain ⟨h', u, os, -, hs'⟩ := atEnd
      exact h'.quits hs' hf

end

/-- A regular program can be loaded into a fresh machine. Driven with a host that answers plain data, the machine
    reports the same actions as the evaluation of the program, comes to the same end, and has bound the same
    global variables, but for the blocks of functions. -/
theorem run_means (o : Options) (name : Text) (items : List Node) (host : List Action → Value)
    (hregular : Node.everyNode Node.isRegular items = true) (hplain : ∀ log, (host log).isPlain = true) :
    ∃ m, (new o).loadNodes name items = (.ok (), m) ∧
      let σ : Setting := ⟨m.program.idents.number, o.fallback, o.limit, host⟩
      Means (Eval.result (Eval.program σ items) (.start σ o.hostNames)) (m.run (.answering host) false []) := by
  have whole : Node.everyNode Node.isWhole items = true :=
    Node.everyNode_mono (fun n hn => by simp only [Node.isRegular, Bool.and_eq_true] at hn; exact hn.2) hregular
  let p : Program := { idents := Idents.empty.internAll (importName :: o.hostNames) }
  -- the unit gets the block 0, and all functions get blocks behind it
  have behind : ∀ b, p.slots.length < b → 0 < b := fun _ => id
  obtain ⟨q, hq, hle, sl, hsl, -, hl⟩ := Lower.compile_lowered whole behind (Nat.lt_irrefl 0)
  have hids : p.idents.Agrees q.idents.number := (Idents.agrees_number q.idents).mono hle.names
  have fresh : new o = { program := p, fallback := o.fallback, limit := o.limit, scopes := .initial q.idents.number o.hostNames } :=
    ofProgram_eq hids
  let f : Frame := { name := name, unit := name, block := 0, scope := globals }
  let m : Machine := {
    program := q, fallback := o.fallback, limit := o.limit, scopes := .initial q.idents.number o.hostNames
    frames := [f], units := [⟨name, 0, []⟩] }
  have loaded : (new o).loadNodes name items = (.ok (), m) := by
    rw [fresh]
    simp only [loadNodes, unit?, hq]
    rfl
  refine ⟨m, loaded, ?_⟩
  intro σ
  have noFunction : m.Every (Known (0 < ·) q (.start σ o.hostNames)) := by
    refine ⟨Scopes.every_initial _ _ _, fun g hg => ?_⟩
    obtain rfl := List.mem_singleton.mp hg
    exact ⟨by simp [f], by simp [f], trivial⟩
  have mirrors : Mirrors (0 < ·) q σ m [] (.start σ o.hostNames) :=
    ⟨rfl, Idents.agrees_number _, rfl, rfl, ⟨rfl, rfl⟩, rfl, rfl, rfl, Scopes.rename_initial Renaming.anyBlock_faithful _ _, rfl, rfl, rfl, by simp [m],
      noFunction⟩
  exact mirrors.means hplain hregular hl (f := f) ⟨0, rfl, 0, sl, rfl, hsl, rfl⟩ rfl rfl

/-- Declares a type and a function, which makes an object and hands one of its fields to the host. -/
def serve : List Node :=
  [.structDef "Ball" [("x", "Int")],
   .assign (.ident "serve") (.function ["n"]
    [.assign (.ident "ball") (.construct "Ball" [("x", .ident "n")]),
     .ret (some (.call (.ident "hit") [.binary .add (.property (.ident "ball") "x") (.int 1)]))]),
   .assign (.ident "score") (.call (.ident "serve") [.int 2])]

/-- The setting of a machine for the program, and a host that answers 7. -/
def serveSetting : Setting :=
  ⟨((new { fallback := true }).loadNodes "main" serve).2.program.idents.number, true, 256, fun _ => .int 7⟩

theorem serve_evaluates : (Eval.result (Eval.program serveSetting serve) (.start serveSetting [])).1.isOk = true ∧
    (Eval.result (Eval.program serveSetting serve) (.start serveSetting [])).2.log.map Action.render =
      ["Construct\x7b1 Ball\x7d", "StoreField\x7b1 x 2\x7d", "LoadField\x7b1 x\x7d", "Call\x7bhit(3)\x7d", "Quit"] := by
  decide +kernel

theorem run_means_serve :
    ∃ m, (new { fallback := true }).loadNodes "main" serve = (.ok (), m) ∧
      let r := m.run (.answering fun _ => .int 7) false []
      r.1 = none ∧ ((r.2.2 ++ r.2.1.queue).map (Action.rename .anyBlock)).map Action.render =
        ["Construct\x7b1 Ball\x7d", "StoreField\x7b1 x 2\x7d", "LoadField\x7b1 x\x7d", "Call\x7bhit(3)\x7d", "Quit"] := by
  have regular : Node.everyNode Node.isRegular serve = true := by decide +kernel
  obtain ⟨m, hm, means⟩ := run_means { fallback := true } "main" serve (fun _ => .int 7) regular fun _ => rfl
  refine ⟨m, hm, ?_⟩
  have setting : (⟨m.program.idents.number, true, 256, fun _ => .int 7⟩ : Setting) = serveSetting := by
    unfold serveSetting
    rw [hm]
  simp only [setting] at means
  have evaluates := serve_evaluates
  rcases hr : Eval.result (Eval.program serveSetting serve) (.start serveSetting []) with ⟨c | u, w⟩
  · rw [hr] at evaluates
    cases evaluates.1
  · rw [hr] at evaluates means
    refine ⟨means.1, ?_⟩
    rw [means.2.1]
    exact evaluates.2

end Scriptlet.Machine
