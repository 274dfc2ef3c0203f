import SsaCompiler.Compile
import SsaCompiler.Proofs.Except

/-!
# Compiling without a session

A session records what a compilation does; it has no influence on the result. So
a computation **gives** the same result in every session (`Compile.Gives`), and
the code of a function is that of the stages alone (`Compile.code`), unless a
drawing cannot be written.
-/

namespace SsaCompiler

open SsaCompiler.Except

variable {s' : Session} {o : Options} {p : Program}

/-- **The code of a graph**: schedule, virtual registers, places,
instructions. -/
def Graph.code (registers : List Register) (g : Graph) : Except Failure (List Asm) := do
  let schedule ← (Schedule.build g).mapError .error
  let numbering ← (Numbering.ofSchedule g schedule).mapError .fault
  let lines ← Line.ofSchedule g schedule numbering
  let allocation := Allocation.ofInterference registers (.ofLiveness (.solve lines))
  (Placed.function ⟨g, numbering, allocation⟩ schedule).mapError (·.cause)

/-- **The code of a function**, with the registers that values may have. -/
def Function.code (registers : List Register) (f : Function) : Except Failure (List Asm) := do
  let built ← f.toGraph.mapError .fault
  built.graph.code registers

/-- The stages of a function, one after the other. -/
theorem Function.code_eq {f : Function} {r : FunctionGraph} {s : Schedule} {numbering : Numbering}
    {lines : Array Line} (hr : f.toGraph = .ok r) (hs : Schedule.build r.graph = .ok s)
    (hn : Numbering.ofSchedule r.graph s = .ok numbering)
    (hl : Line.ofSchedule r.graph s numbering = .ok lines) (registers : List Register) :
    f.code registers = (Placed.function
      ⟨r.graph, numbering, .ofInterference registers (.ofLiveness (.solve lines))⟩ s).mapError
        (·.cause) := by
  unfold code
  rw [hr]
  show (Except.mapError _ (Schedule.build r.graph) >>= _) = _
  rw [hs]
  show (Except.mapError _ (Numbering.ofSchedule r.graph s) >>= _) = _
  rw [hn]
  show (Line.ofSchedule r.graph s numbering >>= _) = _
  rw [hl]
  rfl

namespace Compile

variable {α β : Type} {c : Compile α} {f : α → Compile β} {s : Session}

/-! ## One computation after another -/

theorem runIn_bind (s : Session) (c : Compile α) (f : α → Compile β) :
    runIn s (c >>= f) = match runIn s c with
      | (.ok a, s') => runIn s' (f a)
      | (.error e, s') => (.error e, s') := by
  show (ExceptT.bindCont f (c s).1 (c s).2) = match c s with
      | (.ok a, s') => runIn s' (f a)
      | (.error e, s') => (.error e, s')
  obtain ⟨r, s'⟩ := c s
  cases r with
  | ok a | error e => rfl

/-- **What comes after a computation is run only if the computation has a
result.** -/
theorem runIn_bind_eq_ok {b : β} : runIn s (c >>= f) = (.ok b, s') ↔
      ∃ a t, runIn s c = (.ok a, t) ∧ runIn t (f a) = (.ok b, s') := by
  rw [runIn_bind]
  obtain ⟨r, t⟩ := runIn s c
  cases r with
  | ok a => exact ⟨fun h => ⟨a, t, rfl, h⟩, fun ⟨_, _, he, h⟩ => by cases he; exact h⟩
  | error e => exact ⟨fun h => absurd (congrArg Prod.fst h) nofun, fun ⟨_, _, he, _⟩ =>
      absurd (congrArg Prod.fst he) nofun⟩

/-- **A computation gives a result**, whatever the session. -/
def Gives (c : Compile α) (r : Except Failure α) : Prop :=
  ∀ s, (runIn s c).1 = r

theorem Gives.bind {r : Except Failure α} {g : α → Except Failure β} (h : Gives c r)
    (hf : ∀ a, Gives (f a) (g a)) : Gives (c >>= f) (r >>= g) := fun s => by
  have hr := h s
  rw [runIn_bind]
  subst hr
  obtain ⟨r, t⟩ := runIn s c
  cases r with
  | ok a => exact hf a t
  | error e => rfl

theorem Gives.pass {f : α → Compile α} {r : Except Failure α} (h : Gives c r)
    (hf : ∀ a, Gives (f a) (.ok a)) : Gives (c >>= f) r := fun s => by
  rw [h.bind hf s]
  cases r <;> rfl

theorem gives_pure (a : α) : Gives (pure a) (.ok a) := fun _ => rfl

theorem Gives.update {r : Except Failure β} {c : Compile β} (g : Session → Session)
    (h : Gives c r) : Gives (Compile.update g >>= fun _ => c) r := fun s => h (g s)

theorem gives_stage (r : Except CompileError α) : Gives (stage r) (r.mapError .error) := fun s => by
  cases r <;> rfl

theorem gives_certain (r : Except Fault α) : Gives (certain r) (r.mapError .fault) := fun s => by
  cases r <;> rfl

theorem gives_attempt (r : Except Failure α) : Gives (attempt r) r := fun s => by
  cases r <;> rfl

/-! ## Functions -/

theorem gives_emit (p : Placed) (schedule : Schedule) :
    Gives (emit p schedule) ((p.function schedule).mapError (·.cause)) := fun s => by
  unfold emit
  cases p.function schedule <;> rfl

/-- The stages of a function from its schedule on. -/
def afterGraph (o : Options) (f : Function) (g : Graph) : Compile (List Asm) := do
  let schedule ← stage (Schedule.build g)
  report (.scheduled g.name schedule.blocks.length schedule.postorder.length)
  let numbering ← certain (Numbering.ofSchedule g schedule)
  report (.registersNumbered g.name numbering.size)
  let lines ← attempt (Line.ofSchedule g schedule numbering)
  let liveness := Liveness.solve lines
  report (.livenessSettled g.name lines.size liveness.facts)
  let allocation ← allocate o.registers (Interference.ofLiveness liveness)
  update (·.count (·.recordAllocation numbering.size allocation.spillSlots))
  report (.allocated f.name numbering.size allocation.spillSlots)
  let code ← emit ⟨g, numbering, allocation⟩ schedule
  update (·.count (·.recordFunction f.name (Asm.instructions code).length))
  update (·.leave)
  pure code

theorem gives_afterGraph (o : Options) (f : Function) (g : Graph) :
    Gives (afterGraph o f g) (g.code o.registers) := by
  refine (gives_stage _).bind fun schedule => .update _ ?_
  refine (gives_certain _).bind fun numbering => .update _ ?_
  refine (gives_attempt _).bind fun lines => .update _ ?_
  refine Gives.update _ (Gives.update _ (Gives.update _ ?_))
  exact (gives_emit _ schedule).pass fun code => .update _ (.update _ (gives_pure code))

/-- A function is compiled by its stages, with a drawing after the first if one
is asked for. -/
theorem function_eq (o : Options) (f : Function) : function o f = (do
    report (.functionEntered f.name)
    update (·.enter f.name)
    let built ← certain f.toGraph
    update fun s => { s with log := s.log ++ built.log }
    update (·.count (·.recordGraph built.graph.size built.phisRemoved))
    (match o.dump with
      | some target => dump target built.graph
      | none => pure ()) >>= fun _ => afterGraph o f built.graph) := by
  obtain ⟨registers, dump⟩ := o
  cases dump <;> rfl

/-- Without drawings, the code of a function is that of its stages. -/
theorem gives_function (hd : o.dump = none) (f : Function) :
    Gives (function o f) (f.code o.registers) := by
  rw [function_eq, hd]
  refine .update _ (.update _ ((gives_certain _).bind fun built => .update _ (.update _ ?_)))
  exact gives_afterGraph o f built.graph

/-- **A function that is compiled has the code of its stages.** -/
theorem code_of_function {f : Function} {code : List Asm}
    (h : runIn s (function o f) = (.ok code, s')) : f.code o.registers = .ok code := by
  rw [function_eq] at h
  obtain ⟨_, _, -, h⟩ := runIn_bind_eq_ok.1 h
  obtain ⟨_, _, -, h⟩ := runIn_bind_eq_ok.1 h
  obtain ⟨built, _, hb, h⟩ := runIn_bind_eq_ok.1 h
  obtain ⟨_, _, -, h⟩ := runIn_bind_eq_ok.1 h
  obtain ⟨_, _, -, h⟩ := runIn_bind_eq_ok.1 h
  obtain ⟨_, t, -, h⟩ := runIn_bind_eq_ok.1 h
  refine bind_eq_ok.2 ⟨built, (gives_certain f.toGraph _).symm.trans (congrArg Prod.fst hb), ?_⟩
  exact (gives_afterGraph o f built.graph t).symm.trans (congrArg Prod.fst h)

/-! ## Programs -/

theorem runIn_tryCatch (s : Session) (c : Compile α) (ha : Failure → Compile α) :
    runIn s (tryCatch c ha) = match runIn s c with
      | (.ok a, t) => (.ok a, t)
      | (.error e, t) => runIn t (ha e) := by
  simp only [runIn, tryCatch, tryCatchThe, MonadExceptOf.tryCatch, ExceptT.tryCatch, ExceptT.run,
    ExceptT.mk, StateT.run, bind, StateT.bind]
  obtain ⟨r, t⟩ := c s
  cases r <;> rfl

theorem runIn_functionOrReport {f : Function} {code : List Asm}
    (h : runIn s (functionOrReport o f) = (.ok code, s')) :
    runIn s (function o f) = (.ok code, s') := by
  rw [functionOrReport, runIn_tryCatch] at h
  generalize runIn s (function o f) = r at h ⊢
  obtain ⟨r, t⟩ := r
  cases r with
  | ok a => exact h
  | error e => cases congrArg Prod.fst h

theorem codes_of_mapM {codes : List (List Asm)}
    (h : runIn s (p.mapM (functionOrReport o)) = (.ok codes, s')) :
    List.Forall₂ (fun f code => Function.code o.registers f = .ok code) p codes := by
  induction p generalizing codes s s' with
  | nil =>
    cases congrArg Prod.fst h
    exact .nil
  | cons f rest ih =>
    rw [List.mapM_cons] at h
    obtain ⟨code, t, hc, h⟩ := runIn_bind_eq_ok.1 h
    obtain ⟨more, t', hm, h⟩ := runIn_bind_eq_ok.1 h
    cases congrArg Prod.fst h
    exact .cons (code_of_function (runIn_functionOrReport hc)) (ih hm)

/-- The text of a program is made of the code of its functions. -/
theorem exists_codes {text : String} (h : runIn s (program o p) = (.ok text, s')) :
    ∃ codes, List.Forall₂ (fun f code => Function.code o.registers f = .ok code) p codes ∧
      text = ".text\n" ++ String.join (codes.map fun code => "\n" ++ Asm.render code) := by
  obtain ⟨codes, t, hc, h⟩ := runIn_bind_eq_ok.1 h
  exact ⟨codes, codes_of_mapM hc, (Except.ok.inj (congrArg Prod.fst h)).symm⟩

end Compile

end SsaCompiler
