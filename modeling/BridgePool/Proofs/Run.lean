import BridgePool.Proofs.Chain

/-!
# Runs

A `Run` is a set-up and the calls after it, each with the stores around it. Every history is one
(`History.exists_run`), and the store at its end is reachable (`Run.reachable`). What a set-up
establishes and every call keeps holds along a run (`Run.invariant`).
-/

namespace BridgePool.Chain

theorem play_cons (s : Store) (c : Call) (rest : List Call) :
    play s (c :: rest) =
      (⟨c, (c.run s).1⟩ :: (play (c.run s).2 rest).1, (play (c.run s).2 rest).2) :=
  rfl

/-- A step together with the stores before and after it. -/
structure Moment extends Step where
  before : Store
  after : Store

/-- The moment of a call on a store. -/
def Moment.of (s : Store) (c : Call) : Moment :=
  ⟨⟨c, (c.run s).1⟩, s, (c.run s).2⟩

@[simp] theorem Moment.before_of (s : Store) (c : Call) : (Moment.of s c).before = s :=
  rfl

theorem Moment.of_ran {s s' : Store} {c : Call} {answer : Except Fault Response}
    (ran : c.run s = (answer, s')) : Moment.of s c = ⟨⟨c, answer⟩, s, s'⟩ := by
  rw [of, ran]

/-- What the set-up answered, the moments after it from the first to the last, and the store at
the end. -/
inductive Run : Response → List Moment → Store → Prop
  | founded {m : Setup} {opening : Response} {s : Store} :
      (Bridge.setUp m).run .empty = (.ok opening, s) → Run opening [] s
  | call {opening : Response} {past : List Moment} {s : Store} (c : Call) :
      Run opening past s → Run opening (past ++ [.of s c]) (c.run s).2

variable {m : Setup} {opening : Response} {past : List Moment} {steps : List Step} {s : Store}

theorem Run.reachable (h : Run opening past s) : Reachable s := by
  induction h with
  | founded done => exact .founded ⟨_, done⟩
  | call c _ ih => exact .call c ih

/-- What holds of a store that was just set up, and is kept by every call, holds along a run. -/
theorem Run.invariant {I : List Moment → Store → Book → Prop} (h : Run opening past s)
    (founded : ∀ s c, c.InBounds → I [] s (.founded c))
    (call : ∀ past s c, Reachable s → I past s s.book →
      I (past ++ [.of s c]) (c.run s).2 (c.run s).2.book) : I past s s.book := by
  induction h with
  | founded done =>
      obtain ⟨c, bounds, _, _, keeps⟩ := Bridge.run_setUp_ok done
      rw [keeps.book_eq]
      exact founded _ c bounds
  | call c earlier ih => exact call _ _ c earlier.reachable ih

/-- Every moment of a run is a call on a reachable store. -/
theorem Run.exists_call {m : Moment} (h : Run opening past s) (mem : m ∈ past) :
    ∃ s c, Reachable s ∧ m = .of s c := by
  induction h with
  | founded => cases mem
  | call c earlier ih =>
      rcases List.mem_append.mp mem with old | new
      · exact ih old
      · exact ⟨_, c, earlier.reachable, List.mem_singleton.mp new⟩

/-- What comes before a moment of a run is a run, to the store of that moment. -/
theorem Run.exists_earlier {earlier later : List Moment} {m : Moment}
    (h : Run opening (earlier ++ m :: later) s) :
    ∃ s c, Run opening earlier s ∧ m = .of s c := by
  generalize whole : earlier ++ m :: later = past at h
  induction h generalizing later with
  | founded => exact absurd whole (by simp)
  | @call _ _ s c past ih =>
      -- the last call is this moment, or it belongs to what comes later
      rcases List.eq_nil_or_concat later with rfl | ⟨between, last, rfl⟩
      · obtain ⟨rfl, new⟩ := List.append_inj' whole rfl
        exact ⟨s, c, past, (List.cons.inj new).1⟩
      · rw [List.concat_eq_append, ← List.cons_append, ← List.append_assoc] at whole
        exact ih (List.append_inj' whole rfl).1

/-- A run goes on with any calls. -/
theorem Run.play (h : Run opening past s) (calls : List Call) :
    ∃ moments, moments.map Moment.toStep = (Chain.play s calls).1 ∧
      Run opening (past ++ moments) (Chain.play s calls).2 := by
  induction calls generalizing past s with
  | nil => exact ⟨[], rfl, (List.append_nil past).symm ▸ h⟩
  | cons c rest ih =>
      obtain ⟨moments, same, run⟩ := ih (h.call c)
      refine ⟨.of s c :: moments, congrArg (_ :: ·) same, ?_⟩
      rw [List.append_assoc] at run
      exact run

/-- Every history is a run. -/
theorem History.exists_run (h : History m steps s) :
    ∃ opening moments, moments.map Moment.toStep = steps ∧ Run opening moments s := by
  obtain ⟨s₀, ⟨opening, done⟩, played⟩ := h
  obtain ⟨moments, same, run⟩ := (Run.founded done).play (steps.map Step.call)
  rw [played] at same run
  exact ⟨opening, moments, same, run⟩

end BridgePool.Chain
