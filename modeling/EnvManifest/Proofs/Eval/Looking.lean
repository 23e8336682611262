import EnvManifest.Proofs.Eval.Folding
import EnvManifest.Proofs.Script.Programs

/-!
# Engines that look an expression up

An expression that calls nothing has its value after a few steps. Such a run changes nothing, and
ends before the engine can be told to stop a second time.
-/

namespace EnvManifest

open Script

variable {host : Host}

/-! ## Short runs -/

/-- A clock that lets so many steps be taken. -/
def Clock.Lasts (c : Clock) (n : Nat) : Prop :=
  c.steps + n < Clock.interval ∨ c.patience.ask.1 = false ∧ n ≤ Clock.interval

theorem Clock.Lasts.tick {c : Clock} {n : Nat} (h : c.Lasts (n + 1)) :
    c.tick.1 = false ∧ c.tick.2.Lasts n := by
  unfold Clock.tick Clock.Lasts at *
  split
  · refine ⟨rfl, ?_⟩
    obtain h | ⟨ha, hn⟩ := h
    · exact .inl (by dsimp only; omega)
    · exact .inr ⟨ha, by omega⟩
  · obtain h | ⟨ha, hn⟩ := h
    · omega
    · exact ⟨ha, .inl (by dsimp only; omega)⟩

/-- A clock that goes on for as many steps as a machine takes lets it come to its end. -/
theorem steps_of_reaches (goes : Clock → Nat → Prop)
    (hgoes : ∀ {c n}, goes c (n + 1) → c.tick.1 = false ∧ goes c.tick.2 n) {n : Nat}
    {m m₁ : Machine} (hr : Machine.Reaches host n m m₁) (hstop : m₁.outcome?.isSome) (c : Clock)
    (hc : goes c n) (fuel : Nat) (hf : n < fuel) : (Engine.steps host fuel c m).2 = m₁ := by
  induction hr generalizing c fuel with
  | refl m =>
    obtain ⟨fuel, rfl⟩ := Nat.exists_eq_succ_of_ne_zero (Nat.pos_iff_ne_zero.1 hf)
    obtain ⟨r, ho⟩ := Option.isSome_iff_exists.1 hstop
    rw [Engine.steps, ho]
  | step h hr ih =>
    obtain ⟨fuel, rfl⟩ := Nat.exists_eq_succ_of_ne_zero (Nat.pos_iff_ne_zero.1 (Nat.zero_lt_of_lt hf))
    obtain ⟨hno, hlasts⟩ := hgoes hc
    rw [Engine.steps, h]
    rcases ht : c.tick with ⟨stop, c'⟩
    rw [ht] at hno hlasts
    obtain rfl : stop = false := hno
    exact ih hstop c' hlasts fuel (Nat.lt_of_succ_lt_succ hf)

/-- A program that gives back an expression which is looked up. -/
theorem give_reaches (host : Host) {h : Heap} {id : Nat} {e : Expr} {s : Scope} {d : Datum}
    (hid : h.closures[id]? = some ⟨⟨0, true, [.give [e]]⟩, s⟩) (hs : s.varargs = [])
    (he : e.isCall = false) (hl : h.look s e = some d) :
    Machine.Reaches host (e.cost + 4) (Machine.start h (.closure id)) ⟨h, .give [d], [], 0⟩ := by
  obtain ⟨cells, varargs, chunk⟩ := s
  obtain rfl : varargs = [] := hs
  have hcall : Machine.step host (Machine.start h (.closure id)) =
      ⟨h, .exec ⟨cells, [], chunk⟩ [.give [e]], [.call none], 1⟩ := by
    unfold Machine.start Machine.step Machine.call
    dsimp only
    rw [hid]
    rfl
  have hexec : Machine.step host ⟨h, .exec ⟨cells, [], chunk⟩ [.give [e]], [.call none], 1⟩ =
      ⟨h, .eval ⟨cells, [], chunk⟩ e,
        [.operands ⟨cells, [], chunk⟩ [] [] true (.statement (.give [e]) []), .call none], 1⟩ := by
    cases e with
    | call => cases he
    | method => cases he
    | _ => rfl
  -- A call would hand over all of its values here, and so is left out.
  have hback : Machine.step host ⟨h, .give [d],
        [.operands ⟨cells, [], chunk⟩ [] [] true (.statement (.give [e]) []), .call none], 1⟩ =
      ⟨h, .back [d], [.call none], 1⟩ := by
    cases e with
    | call => cases he
    | method => cases he
    | _ => rfl
  refine .step rfl ?_
  rw [hcall]
  refine .step rfl ?_
  rw [hexec]
  refine (Machine.look_reaches h ⟨cells, [], chunk⟩ e d _ 1 hl).trans (.step rfl ?_)
  rw [hback]
  exact .step rfl (.refl _)

/-! ## Engines -/

/-- What surrounds the program of an expression: its table of names. -/
def Engine.programScope (engine : Engine) : Script.Scope :=
  ⟨[engine.heap.cells.size], [], EngineError.chunk⟩

/-- Has nobody told the engine to stop? -/
def Engine.GoesOn (engine : Engine) : Prop := engine.clock.patience.ask.1 = false

/-- The engine reads a text as an expression, and the expression has the value. -/
def Engine.Evaluates (engine : Engine) (scope : ScopeId) (source : String) (d : Datum) : Prop :=
  ∃ program loaded, engine.compile source scope = .ok (program, loaded) ∧
    (loaded.run program).1 = .ok d

/-- A program that gives back an expression which is looked up, run by an engine. It changes nothing
but the clock. -/
theorem run_give {engine : Engine} (hg : engine.GoesOn) {id : Nat} {e : Expr} {s : Script.Scope}
    {d : Datum} (hid : engine.heap.closures[id]? = some ⟨⟨0, true, [.give [e]]⟩, s⟩)
    (hs : s.varargs = []) (he : e.isCall = false) (hcost : e.cost < 900)
    (hl : engine.heap.look s e = some d) :
    ∃ c, engine.run (.closure id) = (.ok d, { engine with clock := c }) := by
  have hlasts : engine.clock.Lasts (e.cost + 4) := .inr ⟨hg, by unfold Clock.interval; omega⟩
  have hsteps := steps_of_reaches Clock.Lasts Clock.Lasts.tick
    (give_reaches engine.host hid hs he hl) rfl engine.clock hlasts Engine.maxSteps
    (by unfold Engine.maxSteps; omega)
  rw [run_eq]
  generalize Engine.steps engine.host Engine.maxSteps engine.clock
    (Machine.start engine.heap (.closure id)) = ran at hsteps ⊢
  obtain ⟨c, m⟩ := ran
  obtain rfl : m = _ := hsteps
  exact ⟨c, rfl⟩

/-- The engine with the program of an expression. -/
def Engine.loaded (engine : Engine) (scope : ScopeId) (e : Expr) : Engine :=
  (Engine.load ⟨0, true, [.give [e]]⟩ scope engine).2

theorem compile_give {engine : Engine} {source : String} {e : Expr} (scope : ScopeId)
    (h : parseProgram (Engine.programText source) = .ok ⟨0, true, [.give [e]]⟩) :
    engine.compile source scope = .ok (.closure engine.heap.closures.size, engine.loaded scope e) := by
  rw [compile_eq, h]
  rfl

/-- A program finds its table of names. -/
theorem valueOf_loaded (engine : Engine) (scope : ScopeId) (e : Expr) :
    (engine.loaded scope e).heap.valueOf engine.programScope 0 = .table scope := by
  have hcells : (engine.loaded scope e).heap.cells = engine.heap.cells.push (.table scope) := rfl
  unfold Heap.valueOf Heap.cell Engine.programScope
  rw [hcells]
  simp

theorem look_global (h : Heap) (s : Script.Scope) (l : Nat) (name : String) :
    h.look s (.global l name) = (h.index (h.valueOf s 0) (.ofString name)).done? := rfl

theorem run_loaded {engine : Engine} (hg : engine.GoesOn) (scope : ScopeId) {e : Expr} {d : Datum}
    (he : e.isCall = false) (hcost : e.cost < 900)
    (hl : (engine.loaded scope e).heap.look engine.programScope e = some d) :
    ∃ c, (engine.loaded scope e).run (.closure engine.heap.closures.size) =
      (.ok d, { engine.loaded scope e with clock := c }) :=
  have hgoes : (engine.loaded scope e).GoesOn := hg
  run_give hgoes Array.getElem?_push_size rfl he hcost hl

/-- A text that is read as an expression has the value that is looked up. -/
theorem evaluates_of_look {engine : Engine} (hg : engine.GoesOn) {scope : ScopeId} {source : String}
    {e : Expr} {d : Datum}
    (h : parseProgram (Engine.programText source) = .ok ⟨0, true, [.give [e]]⟩)
    (he : e.isCall = false) (hcost : e.cost < 900)
    (hl : (engine.loaded scope e).heap.look engine.programScope e = some d) :
    engine.Evaluates scope source d := by
  obtain ⟨c, hrun⟩ := run_loaded hg scope he hcost hl
  exact ⟨_, _, compile_give scope h, by rw [hrun]⟩

/-- A text is read as an expression that can be looked up, in so many steps and with this value. -/
def Engine.Looks (engine : Engine) (scope : ScopeId) (source : String) (d : Datum) (most : Nat) :
    Prop :=
  ∃ e, parseProgram (Engine.programText source) = .ok ⟨0, true, [.give [e]]⟩ ∧ e.isCall = false ∧
    e.cost ≤ most ∧ (engine.loaded scope e).heap.look engine.programScope e = some d

theorem Engine.Looks.evaluates {engine : Engine} {scope : ScopeId} {source : String} {d : Datum}
    {most : Nat} (h : engine.Looks scope source d most) (hg : engine.GoesOn) (hmost : most < 900) :
    engine.Evaluates scope source d := by
  obtain ⟨e, hparse, hcall, hcost, hlook⟩ := h
  exact evaluates_of_look hg hparse hcall (Nat.lt_of_le_of_lt hcost hmost) hlook

/-! ## Engines that nobody stops -/

/-- The program of a text gives back the value in fewer steps than that, whatever their limit is. -/
def Engine.EvaluatesWithin (engine : Engine) (scope : ScopeId) (source : String) (d : Datum)
    (limit : Nat) : Prop :=
  ∃ program loaded, engine.compile source scope = .ok (program, loaded) ∧
    ∀ fuel, limit ≤ fuel → Engine.resultOf
      (Engine.steps loaded.host fuel loaded.clock (Machine.start loaded.heap program)).2 = .ok d

/-- So the engine gives it back, if its own limit is not passed. -/
theorem Engine.EvaluatesWithin.evaluates {engine : Engine} {scope : ScopeId} {source : String}
    {d : Datum} {limit : Nat} (h : engine.EvaluatesWithin scope source d limit)
    (hlimit : limit ≤ Engine.maxSteps) : engine.Evaluates scope source d := by
  obtain ⟨program, loaded, hcompile, hrun⟩ := h
  exact ⟨program, loaded, hcompile, hrun _ hlimit⟩

theorem Engine.EvaluatesWithin.mono {engine : Engine} {scope : ScopeId} {source : String}
    {d : Datum} {limit more : Nat} (h : engine.EvaluatesWithin scope source d limit)
    (hle : limit ≤ more) : engine.EvaluatesWithin scope source d more := by
  obtain ⟨program, loaded, hcompile, hrun⟩ := h
  exact ⟨program, loaded, hcompile, fun fuel hfuel => hrun fuel (Nat.le_trans hle hfuel)⟩

/-- An engine that nobody stops looks up expressions of any size. -/
theorem Engine.Looks.evaluatesWithin {engine : Engine} {scope : ScopeId} {source : String}
    {d : Datum} {most : Nat} (h : engine.Looks scope source d most)
    (hp : engine.clock.patience = .endless) :
    engine.EvaluatesWithin scope source d (most + 5) := by
  obtain ⟨e, hparse, hcall, hcost, hlook⟩ := h
  refine ⟨_, _, compile_give scope hparse, fun fuel hfuel => ?_⟩
  have hreaches := give_reaches engine.host Array.getElem?_push_size rfl hcall hlook
  have hsteps := steps_of_reaches (fun c _ => c.patience = .endless) tick_endless hreaches rfl
    (engine.loaded scope e).clock hp fuel (by omega)
  exact congrArg Engine.resultOf hsteps

end EnvManifest
