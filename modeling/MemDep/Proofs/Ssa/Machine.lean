import MemDep.Proofs.Ssa.Demand

/-!
# Look-ups as runs of a machine

A machine that looks definitions up step by step, with the nested look-ups and the phis that are
being filled on a stack, and without any bound on the steps. Each step scans the rest of one block,
goes on with the frame on top of the stack, or hands a result to that frame.

The machine comes to a halt from every table, and with the table and the definitions that
`Scope.definitions` gives (`Scope.halts_start`): the recursion is followed uniformly in the frames
below. What a step can do is `Scope.step_cases`; invariants of whole runs follow from it.
-/

namespace MemDep

open Relation

/-- What is left to do when a nested look-up has its result. -/
inductive Frame (count : Nat) where
  /-- Look up the phis for some intervals at a join. -/
  | lookup (found : List MemoryDef) (block : Fin count) (opened : List Interval)
  /-- Fill a phi with the definitions from some predecessors of its block. -/
  | fill (key : PhiKey) (id : Nat) (preds : List (Fin count)) (operands : List MemoryDef)

/-- What the machine does next. -/
inductive Control (count : Nat) where
  /-- It walks backwards from a place of a block, with bytes that are open. -/
  | walk (block : Fin count) (stop : Nat) (opened : ByteSet) (found : List MemoryDef)
  /-- It goes on with the frame on top of the stack. -/
  | resume
  /-- It hands definitions to the frame on top, or halts with them. -/
  | defs (found : List MemoryDef)
  /-- It hands the definition that a phi stands for to the frame on top. -/
  | defn (d : MemoryDef)

/-- A state of the machine. -/
structure Machine (count : Nat) where
  table : PhiTable
  stack : List (Frame count)
  control : Control count

namespace Scope

/-- The machine that looks up bytes of an object at a place of a block. -/
def start (sc : Scope) (t : PhiTable) (b : Fin sc.blocks.count) (stop : Nat) (query : ByteSet) :
    Machine sc.blocks.count :=
  ⟨t, [], .walk b stop query []⟩

/-- A step of a walk: the walk ends, stops at a join, or goes on in the block before. -/
def stepWalk (sc : Scope) (object : Nat) (t : PhiTable) (stack : List (Frame sc.blocks.count))
    (b : Fin sc.blocks.count) (stop : Nat) (opened : ByteSet) (found : List MemoryDef) :
    Machine sc.blocks.count :=
  let s := sc.scanBlock object b stop opened found
  if s.covered then
    ⟨t, stack, .defs s.found⟩
  else
    match sc.blocks.predecessors b with
    | [] => ⟨t, stack, .defs s.found⟩
    | [a] =>
      if sc.blocks.entry = some b then
        ⟨t, .lookup s.found b s.opened.intervals :: stack, .resume⟩
      else
        ⟨t, stack, .walk a (sc.blocks.nodes a).length s.opened s.found⟩
    | _ :: _ :: _ => ⟨t, .lookup s.found b s.opened.intervals :: stack, .resume⟩

/-- A step with the frame on top of the stack: the next interval has a phi or a new one is entered;
or the next predecessor is walked, or the phi has all its operands. -/
def stepFrame (sc : Scope) (object : Nat) (t : PhiTable) (stack : List (Frame sc.blocks.count)) :
    Frame sc.blocks.count → Machine sc.blocks.count
  | .lookup found _ [] => ⟨t, stack, .defs found⟩
  | .lookup found b (i :: opened) =>
    match t.find? ⟨b, object, i⟩ with
    | some d => ⟨t, .lookup (addDef found d) b opened :: stack, .resume⟩
    | none =>
      ⟨t.enter ⟨b, object, i⟩, .fill ⟨b, object, i⟩ t.size (sc.blocks.predecessors b) [] ::
        .lookup found b opened :: stack, .resume⟩
  | .fill _ id [] operands => ⟨t.fill id operands, stack, .defn ((t.fill id operands).value id)⟩
  | .fill key id (a :: preds) operands =>
    ⟨t, .fill key id preds operands :: stack,
      .walk a (sc.blocks.nodes a).length (.ofInterval key.bytes) []⟩

/-- A step; the machine halts when there is no frame to go on with or to hand a result to. -/
def step (sc : Scope) (object : Nat) (m : Machine sc.blocks.count) : Option (Machine sc.blocks.count) :=
  match m.control, m.stack with
  | .walk b stop opened found, stack => some (sc.stepWalk object m.table stack b stop opened found)
  | .resume, frame :: stack => some (sc.stepFrame object m.table stack frame)
  | .defs found, .fill key id preds operands :: stack =>
    some ⟨m.table, .fill key id preds (addDefs operands found) :: stack, .resume⟩
  | .defn d, .lookup found b opened :: stack =>
    some ⟨m.table, .lookup (addDef found d) b opened :: stack, .resume⟩
  | .defs _, .lookup found b opened :: stack =>
    some ⟨m.table, .lookup found b opened :: stack, .resume⟩
  | .defn _, .fill key id preds operands :: stack =>
    some ⟨m.table, .fill key id preds operands :: stack, .resume⟩
  | _, [] => none

/-- The intervals that a frame is about: those to look up, or that of the phi to fill. -/
def intervals {count : Nat} : Frame count → List Interval
  | .lookup _ _ opened => opened
  | .fill key _ _ _ => [key.bytes]

/-- What a step can do: it walks through a block, goes on with the frame on top, or hands a result
to this frame, which changes neither its intervals nor the table. -/
theorem step_cases {sc : Scope} {object : Nat} {m m' : Machine sc.blocks.count}
    (h : sc.step object m = some m') :
    (∃ b stop opened found, m.control = .walk b stop opened found ∧
      m' = sc.stepWalk object m.table m.stack b stop opened found) ∨
    (∃ frame stack, m.stack = frame :: stack ∧ m' = sc.stepFrame object m.table stack frame) ∨
    ∃ frame frame' stack, m.stack = frame :: stack ∧ m' = ⟨m.table, frame' :: stack, .resume⟩ ∧
      intervals frame' = intervals frame := by
  obtain ⟨t, stack, control⟩ := m
  cases control with
  | walk b stop opened found =>
    exact .inl ⟨b, stop, opened, found, rfl, (Option.some.inj h).symm⟩
  | resume =>
    cases stack with
    | nil => simp [step] at h
    | cons frame stack => exact .inr (.inl ⟨frame, stack, rfl, (Option.some.inj h).symm⟩)
  | defs found =>
    cases stack with
    | nil => simp [step] at h
    | cons frame stack =>
      cases frame <;> exact .inr (.inr ⟨_, _, stack, rfl, (Option.some.inj h).symm, rfl⟩)
  | defn d =>
    cases stack with
    | nil => simp [step] at h
    | cons frame stack =>
      cases frame <;> exact .inr (.inr ⟨_, _, stack, rfl, (Option.some.inj h).symm, rfl⟩)

abbrev Steps (sc : Scope) (object : Nat) : Machine sc.blocks.count → Machine sc.blocks.count → Prop :=
  ReflTransGen fun m m' => sc.step object m = some m'

/-- The machine comes to a halt in a state. -/
def Halts (sc : Scope) (object : Nat) (m m' : Machine sc.blocks.count) : Prop :=
  sc.Steps object m m' ∧ sc.step object m' = none

variable {sc : Scope} {object : Nat}

/-! ## The machine follows the recursion -/

/-- The state after a walk: its definitions are handed on, or its open intervals are looked up. -/
def afterWalk (t : PhiTable) (stack : List (Frame sc.blocks.count)) :
    Walk sc.blocks.count → Machine sc.blocks.count
  | .done found => ⟨t, stack, .defs found⟩
  | .join found b opened => ⟨t, .lookup found b opened :: stack, .resume⟩

theorem stepWalk_join {t : PhiTable} {stack : List (Frame sc.blocks.count)}
    {b : Fin sc.blocks.count} {stop : Nat} {opened : ByteSet} {found : List MemoryDef}
    (hc : (sc.scanBlock object b stop opened found).covered = false)
    (hb : sc.blocks.predecessors b ≠ []) (hj : ∀ a, ¬ sc.blocks.Chases a b) :
    sc.stepWalk object t stack b stop opened found =
      ⟨t, .lookup (sc.scanBlock object b stop opened found).found b
        (sc.scanBlock object b stop opened found).opened.intervals :: stack, .resume⟩ := by
  unfold stepWalk
  simp only [hc, Bool.false_eq_true, if_false]
  split
  case h_1 hnil => exact absurd hnil hb
  case h_2 a ha =>
    split
    case isTrue => rfl
    case isFalse he => exact absurd ⟨ha, he⟩ (hj a)
  case h_3 => rfl

theorem steps_of_walks {b : Fin sc.blocks.count} {stop : Nat} {opened : ByteSet}
    {found : List MemoryDef} {r : Walk sc.blocks.count} (h : sc.Walks object b stop opened found r)
    (t : PhiTable) (stack : List (Frame sc.blocks.count)) :
    sc.Steps object ⟨t, stack, .walk b stop opened found⟩ (afterWalk t stack r) := by
  induction h with
  | covered hc =>
    refine .single ?_
    simp [step, stepWalk, hc, afterWalk]
  | first hc hb =>
    refine .single ?_
    simp [step, stepWalk, hc, hb, afterWalk]
  | join hc hb hj =>
    refine .single ?_
    simp [step, stepWalk_join hc hb hj, afterWalk]
  | chase hc hb _ ih =>
    refine .head ?_ ih
    simp [step, stepWalk, hc, hb.1, hb.2]

theorem steps_demand_of_some {t : PhiTable} {b : Fin sc.blocks.count} {i : Interval} {d : MemoryDef}
    (h : t.find? ⟨b, object, i⟩ = some d) (found : List MemoryDef) (opened : List Interval)
    (stack : List (Frame sc.blocks.count)) :
    sc.Steps object ⟨t, .lookup found b (i :: opened) :: stack, .resume⟩
      ⟨t, .lookup (addDef found d) b opened :: stack, .resume⟩ := by
  refine .single ?_
  simp [step, stepFrame, h]

/-- A new phi is entered, its operands are looked up above the frame that waits for it, and it is
filled with them. -/
theorem steps_demand_of_none {t u : PhiTable} {b : Fin sc.blocks.count} {i : Interval}
    {operands : List MemoryDef} (h : t.find? ⟨b, object, i⟩ = none)
    (hops : ∀ stack, sc.Steps object
      ⟨t.enter ⟨b, object, i⟩, .fill ⟨b, object, i⟩ t.size (sc.blocks.predecessors b) [] :: stack,
        .resume⟩
      ⟨u, .fill ⟨b, object, i⟩ t.size [] operands :: stack, .resume⟩)
    (found : List MemoryDef) (opened : List Interval) (stack : List (Frame sc.blocks.count)) :
    sc.Steps object ⟨t, .lookup found b (i :: opened) :: stack, .resume⟩
      ⟨u.fill t.size operands,
        .lookup (addDef found ((u.fill t.size operands).value t.size)) b opened :: stack,
        .resume⟩ := by
  have hopen : sc.step object ⟨t, .lookup found b (i :: opened) :: stack, .resume⟩ =
      some ⟨t.enter ⟨b, object, i⟩, .fill ⟨b, object, i⟩ t.size (sc.blocks.predecessors b) [] ::
        .lookup found b opened :: stack, .resume⟩ := by
    simp only [step, stepFrame, h]
  have hclose : sc.step object
      ⟨u, .fill ⟨b, object, i⟩ t.size [] operands :: .lookup found b opened :: stack, .resume⟩ =
        some ⟨u.fill t.size operands, .lookup found b opened :: stack,
          .defn ((u.fill t.size operands).value t.size)⟩ := rfl
  exact .head hopen (((hops (.lookup found b opened :: stack)).tail hclose).tail rfl)

theorem steps_operands_cons (hg : sc.blocks.Grounded) {t u : PhiTable} {key : PhiKey} {id : Nat}
    {a : Fin sc.blocks.count} {preds : List (Fin sc.blocks.count)} {operands defs : List MemoryDef}
    {stack : List (Frame sc.blocks.count)}
    (h : sc.Steps object
      (afterWalk t (.fill key id preds operands :: stack) (sc.walkFromEnd object key.bytes a))
      ⟨u, .fill key id preds operands :: stack, .defs defs⟩) :
    sc.Steps object ⟨t, .fill key id (a :: preds) operands :: stack, .resume⟩
      ⟨u, .fill key id preds (addDefs operands defs) :: stack, .resume⟩ := by
  have hwalk := walks_walk hg object a (sc.blocks.nodes a).length (.ofInterval key.bytes)
  have hsteps := steps_of_walks hwalk t (.fill key id preds operands :: stack)
  exact .head rfl ((hsteps.trans h).tail rfl)

/-- The machine looks a key up, whatever frames are below. -/
def FollowsDemand (sc : Scope) (object : Nat) (t : PhiTable) (b : Fin sc.blocks.count) (i : Interval)
    (hi : i.Valid) : Prop :=
  ∀ found opened stack, sc.Steps object ⟨t, .lookup found b (i :: opened) :: stack, .resume⟩
    ⟨(sc.demand object t b i hi).1.1,
      .lookup (addDef found (sc.demand object t b i hi).1.2) b opened :: stack, .resume⟩

/-- The machine looks the operands of a phi up, whatever frames are below. -/
def FollowsOperands (sc : Scope) (object : Nat) (t : PhiTable)
    (blocks : List (Fin sc.blocks.count)) (i : Interval) (hi : i.Valid) (found : List MemoryDef) :
    Prop :=
  ∀ (key : PhiKey) id stack, key.bytes = i →
    sc.Steps object ⟨t, .fill key id blocks found :: stack, .resume⟩
      ⟨(sc.operands object t blocks i hi found).1.1,
        .fill key id [] (sc.operands object t blocks i hi found).1.2 :: stack, .resume⟩

/-- The machine looks some intervals at a join up, whatever frames are below. -/
def FollowsDemandAll (sc : Scope) (object : Nat) (t : PhiTable) (b : Fin sc.blocks.count)
    (opened : List Interval) (hopened : ∀ i ∈ opened, i.Valid) (found : List MemoryDef) : Prop :=
  ∀ stack, sc.Steps object ⟨t, .lookup found b opened :: stack, .resume⟩
    ⟨(sc.demandAll object t b opened hopened found).1.1, stack,
      .defs (sc.demandAll object t b opened hopened found).1.2⟩

theorem steps_demand (hg : sc.blocks.Grounded) (object : Nat) :
    (∀ t b i hi, sc.FollowsDemand object t b i hi) ∧
    (∀ t blocks i hi found, sc.FollowsOperands object t blocks i hi found) ∧
    (∀ t b opened hopened found, sc.FollowsDemandAll object t b opened hopened found) := by
  refine demand.mutual_induct sc object (sc.FollowsDemand object) (sc.FollowsOperands object)
    (sc.FollowsDemandAll object) ?_ ?_ ?_ ?_ ?_ ?_ ?_
  -- one key: it has a phi, or a new one is entered and filled
  · intro t b i hi d hd found opened stack
    rw [demand_of_some hd]
    exact steps_demand_of_some hd found opened stack
  · intro t b i hi hnone ih found opened stack
    rw [demand_of_none hnone]
    have hops := fun stack => ih ⟨b, object, i⟩ t.size stack rfl
    exact steps_demand_of_none hnone hops found opened stack
  -- the operands of a phi: the walk from the next block ends by itself or at a join
  · intro t i hi found key id stack _
    rw [operands]
  · intro t i hi found a rest defs hw ih key id stack hkey
    rw [operands_of_done hw]
    have hw' : sc.walkFromEnd object key.bytes a = .done defs := by
      rw [hkey]
      exact hw
    refine (steps_operands_cons hg ?_).trans (ih key id stack hkey)
    rw [hw', afterWalk]
  · intro t i hi found a rest defs b opened hw hopened r ih _ ih' key id stack hkey
    rw [operands_of_join hw hopened]
    have hw' : sc.walkFromEnd object key.bytes a = .join defs b opened := by
      rw [hkey]
      exact hw
    refine (steps_operands_cons hg ?_).trans (ih' key id stack hkey)
    rw [hw', afterWalk]
    exact ih (.fill key id rest found :: stack)
  -- the intervals at a join, one after the other
  · intro t b found hopened _ stack
    rw [demandAll]
    exact .single rfl
  · intro t b found i rest hopened r _ ih _ _ ih' stack
    have hi : i.Valid := hopened i List.mem_cons_self
    have hrest : ∀ j ∈ rest, j.Valid := fun j hj => hopened j (List.mem_cons_of_mem _ hj)
    rw [demandAll_cons hi hrest]
    exact (ih found rest stack).trans (ih' stack)

/-- The machine halts, with what the recursion finds. -/
theorem halts_start (hg : sc.blocks.Grounded) (t : PhiTable) (b : Fin sc.blocks.count) (stop : Nat)
    (query : ByteSet) (hq : query.Valid) :
    sc.Halts object (sc.start t b stop query)
      ⟨(sc.definitions object t b stop query hq).1, [],
        .defs (sc.definitions object t b stop query hq).2⟩ := by
  refine ⟨?_, rfl⟩
  have hsteps := steps_of_walks (walks_walk hg object b stop query) t []
  unfold definitions
  split
  case h_1 found hw =>
    rw [hw] at hsteps
    exact hsteps
  case h_2 found c opened hw =>
    rw [hw] at hsteps
    exact hsteps.trans ((steps_demand hg object).2.2 t c opened _ found [])

/-! ## Running the machine -/

theorem Halts.unique {m m₁ m₂ : Machine sc.blocks.count} (h₁ : sc.Halts object m m₁)
    (h₂ : sc.Halts object m m₂) : m₁ = m₂ := by
  obtain ⟨hsteps, hstop⟩ := h₁
  induction hsteps using ReflTransGen.head_induction_on with
  | refl =>
    rcases h₂.1.cases_head with heq | ⟨m', hstep, -⟩
    · exact heq
    · rw [hstop] at hstep
      exact absurd hstep (by simp)
  | @head m m' hstep _ ih =>
    refine ih ⟨?_, h₂.2⟩
    rcases h₂.1.cases_head with rfl | ⟨m'', hstep', hsteps'⟩
    · have hnone := h₂.2
      rw [hstep] at hnone
      exact absurd hnone (by simp)
    · rw [hstep] at hstep'
      exact Option.some.inj hstep' ▸ hsteps'

/-- The state after some steps, or where the machine halts if it does so before. -/
def runFor (sc : Scope) (object : Nat) : (steps : Nat) → Machine sc.blocks.count →
    Machine sc.blocks.count
  | 0, m => m
  | steps + 1, m =>
    match sc.step object m with
    | some m' => runFor sc object steps m'
    | none => m

theorem steps_runFor (object steps : Nat) (m : Machine sc.blocks.count) :
    sc.Steps object m (sc.runFor object steps m) := by
  induction steps generalizing m with
  | zero => exact .refl
  | succ steps ih =>
    unfold runFor
    split
    case h_1 m' hstep => exact .head hstep (ih m')
    case h_2 => exact .refl

/-- The definitions that a machine has halted with. -/
def answer? {count : Nat} (m : Machine count) : Option (List MemoryDef) :=
  match m.stack, m.control with
  | [], .defs found => some found
  | _, _ => none

/-- What the machine halts with is what the recursion finds. -/
theorem definitions_eq_runFor (hg : sc.blocks.Grounded) {t : PhiTable} {b : Fin sc.blocks.count}
    {stop steps : Nat} {query : ByteSet} (hq : query.Valid) {found : List MemoryDef}
    (h : answer? (sc.runFor object steps (sc.start t b stop query)) = some found) :
    sc.definitions object t b stop query hq =
      ((sc.runFor object steps (sc.start t b stop query)).table, found) := by
  have hsteps := steps_runFor object steps (sc.start t b stop query)
  generalize sc.runFor object steps (sc.start t b stop query) = m at *
  obtain ⟨u, stack, control⟩ := m
  unfold answer? at h
  split at h
  case h_2 => simp at h
  case h_1 defs hstack hcontrol =>
    simp only at hstack hcontrol
    subst hstack hcontrol
    obtain rfl := Option.some.inj h
    have heq := (halts_start hg t b stop query hq).unique ⟨hsteps, rfl⟩
    simp only [Machine.mk.injEq, Control.defs.injEq, true_and] at heq
    exact Prod.ext heq.1 heq.2

end Scope

end MemDep
