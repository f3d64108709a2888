import MemDep.Proofs.Checked.Blocks
import MemDep.Proofs.Checked.Store
import MemDep.Proofs.Ssa.Resolve

/-!
# Look-ups with checked indices

Definitions are looked up by a loop with a stack. A frame of the stack stands for a join, with the
position of the next interval to look up there, or for a phi, with the position of the next
predecessor of its block; when a frame has come to its end, its result is handed to the frame below.
Blocks are named by numbers, and phis by their positions in the store. Whatever is asked, this does
not fail, and gives the phis and definitions of `Scope.definitions`: the recursion is followed
uniformly in the frames below, with the phis that are being filled pending in the table.
-/

namespace MemDep

namespace Checked

/-! ## Walks -/

/-- The first `k` elements of a list, which has to have as many. -/
def upTo {α : Type} (l : List α) (k : Nat) : Option (List α) :=
  if k ≤ l.length then some (l.take k) else none

/-- How a walk ended. -/
inductive Walked where
  /-- Everything was found. -/
  | done (found : List MemoryDef)
  /-- At a join, with intervals that are still open. -/
  | join (found : List MemoryDef) (block : Nat) (opened : List Interval)

/-- Where a walk has come to. -/
structure Walker where
  /-- The block. -/
  block : Nat
  /-- The place in the block. -/
  stop : Nat
  /-- The bytes that are open. -/
  opened : ByteSet
  /-- The definitions that were found. -/
  found : List MemoryDef

/-- Goes on to the block before if it is the only one and some bytes are open. -/
def goBack (bs : Blocks) (block : Nat) (preds : List Nat) (s : Scan) :
    Option (Turn Walker Walked) := do
  if s.covered then
    return .done (.done s.found)
  match preds with
  | [] => return .done (.done s.found)
  | [pred] =>
    if bs.entry = some block then
      return .done (.join s.found block s.opened.intervals)
    else
      return .again ⟨pred, (← bs.blocks[pred]?).nodes.length, s.opened, s.found⟩
  | _ => return .done (.join s.found block s.opened.intervals)

/-- Scans the rest of a block, and goes back from it. -/
def walkTurn (a : Accesses) (bs : Blocks) (object : Nat) (w : Walker) :
    Option (Turn Walker Walked) := do
  let block ← bs.blocks[w.block]?
  let nodes ← upTo block.nodes (min w.stop block.nodes.length)
  goBack bs w.block block.predecessors
    (Scope.scan ⟨a, .empty⟩ object nodes.reverse w.opened w.found)

/-- Walks backwards from place `stop` of a block. -/
noncomputable def walk (a : Accesses) (bs : Blocks) (object block stop : Nat) (opened : ByteSet) :
    Option Walked :=
  loop (walkTurn a bs object) ⟨block, stop, opened, []⟩

/-- The same end, with the block named by its number. -/
def Walked.of {count : Nat} : Walk count → Walked
  | .done found => .done found
  | .join found b opened => .join found b opened

variable {sc : Scope} {object : Nat}

/-- A scan does not look at the blocks. -/
theorem scan_eq (sc : Scope) (object : Nat) (nodes : List Nat) (opened : ByteSet)
    (found : List MemoryDef) : Scope.scan ⟨sc.accesses, .empty⟩ object nodes opened found =
      sc.scan object nodes opened found := by
  induction nodes generalizing opened found with
  | nil => rfl
  | cons n nodes ih => simp only [Scope.scan, ih]

theorem walkTurn_eq (b : Fin sc.blocks.count) (stop : Nat) (opened : ByteSet)
    (found : List MemoryDef) :
    walkTurn sc.accesses (.of sc.blocks) object ⟨b, stop, opened, found⟩ =
      goBack (.of sc.blocks) b ((sc.blocks.predecessors b).map Fin.val)
        (sc.scanBlock object b stop opened found) := by
  have hupTo : upTo (sc.blocks.nodes b) (min stop (sc.blocks.nodes b).length) =
      some ((sc.blocks.nodes b).take stop) := by
    unfold upTo
    rw [if_pos (Nat.min_le_right _ _), ← List.take_eq_take_min]
  unfold walkTurn
  simp only [getElem?_blocks, Option.bind_eq_bind, Option.bind_some, hupTo, scan_eq]
  rfl

theorem entry_eq_some {bg : BlockGraph} {b : Fin bg.count} :
    (Blocks.of bg).entry = some b.val ↔ bg.entry = some b := by
  simp only [Blocks.of, Option.map_eq_some_iff]
  constructor
  · rintro ⟨c, hc, hval⟩
    rw [hc, Fin.ext hval]
  · intro h
    exact ⟨b, h, rfl⟩

/-- Walking backwards does not fail. -/
theorem walk_eq (hg : sc.blocks.Grounded) (object : Nat) (b : Fin sc.blocks.count) (stop : Nat)
    (opened : ByteSet) : walk sc.accesses (.of sc.blocks) object b stop opened =
      some (.of (sc.walk object b stop opened)) := by
  unfold walk
  have hwalk := Scope.walks_walk hg object b stop opened
  generalize sc.walk object b stop opened = r at hwalk
  generalize ([] : List MemoryDef) = found at hwalk
  induction hwalk with
  | covered hc =>
    refine loop_of_done ?_
    rw [walkTurn_eq]
    unfold goBack
    rw [if_pos hc]
    rfl
  | first hc hb =>
    refine loop_of_done ?_
    rw [walkTurn_eq, hb]
    simp [goBack, hc, Walked.of]
  | @join b stop opened found hc hb hj =>
    refine loop_of_done ?_
    rw [walkTurn_eq]
    generalize hpreds : sc.blocks.predecessors b = preds at hb
    match preds with
    | [] => exact absurd rfl hb
    | [a] =>
      have hentry : sc.blocks.entry = some b := by
        by_contra he
        exact hj a ⟨hpreds, he⟩
      simp [goBack, hc, entry_eq_some.mpr hentry, Walked.of]
    | _ :: _ :: _ => simp [goBack, hc, Walked.of]
  | @chase a b stop opened found r hc hb _ ih =>
    rw [← ih]
    refine loop_of_again ?_
    have hentry : (Blocks.of sc.blocks).entry ≠ some b.val := fun he => hb.2 (entry_eq_some.mp he)
    rw [walkTurn_eq, hb.1]
    simp [goBack, hc, hentry, getElem?_blocks]

/-! ## The loop -/

/-- What is left to do when the frame above has its result. -/
inductive Frame where
  /-- Look up the phis for intervals at a join, from a position on. -/
  | lookup (found : List MemoryDef) (block : Nat) (intervals : List Interval) (next : Nat)
  /-- Fill a phi with the definitions from predecessors of its block, from a position on. -/
  | fill (key : PhiKey) (id : Nat) (preds : List Nat) (next : Nat) (operands : List MemoryDef)

/-- The result of a frame. -/
inductive Returned where
  /-- The definitions at a join. -/
  | defs (found : List MemoryDef)
  /-- The definition that a phi stands for. -/
  | defn (d : MemoryDef)

/-- Hands a result to the frame that waits for it. -/
def Frame.deliver : Frame → Option Returned → Frame
  | .lookup found b intervals next, some (.defn d) => .lookup (addDef found d) b intervals next
  | .fill key id preds next operands, some (.defs found) =>
    .fill key id preds next (addDefs operands found)
  | frame, _ => frame

theorem Frame.deliver_none (frame : Frame) : frame.deliver none = frame := by
  cases frame <;> rfl

/-- A state of a look-up. -/
structure LookUp where
  /-- The phis. -/
  store : Store
  /-- The frames, the current one first. -/
  stack : List Frame
  /-- The result of the frame that was on top. -/
  returned : Option Returned

/-- Goes on with a frame, which is taken off the stack. -/
noncomputable def frameTurn (a : Accesses) (bs : Blocks) (object : Nat) (store : Store)
    (stack : List Frame) : Frame → Option LookUp
  | .lookup found b intervals next => do
    if next < intervals.length then
      let key : PhiKey := ⟨b, object, ← intervals[next]?⟩
      match store.cache key with
      | some d => return ⟨store, .lookup (addDef found d) b intervals (next + 1) :: stack, none⟩
      | none =>
        let block ← bs.blocks[b]?
        return ⟨store.openPhi key, .fill key store.phis.size block.predecessors 0 [] ::
          .lookup found b intervals (next + 1) :: stack, none⟩
    else
      return ⟨store, stack, some (.defs found)⟩
  | .fill key id preds next operands => do
    if next < preds.length then
      let pred ← preds[next]?
      let block ← bs.blocks[pred]?
      match ← walk a bs object pred block.nodes.length (.ofInterval key.bytes) with
      | .done defs =>
        return ⟨store, .fill key id preds (next + 1) (addDefs operands defs) :: stack, none⟩
      | .join defs b intervals =>
        return ⟨store,
          .lookup defs b intervals 0 :: .fill key id preds (next + 1) operands :: stack, none⟩
    else
      let (store, d) ← store.closePhi key id operands
      return ⟨store, stack, some (.defn d)⟩

/-- Goes on with the frame on top of the stack; ends when there is none. -/
noncomputable def lookUpTurn (a : Accesses) (bs : Blocks) (object : Nat) (s : LookUp) :
    Option (Turn LookUp (Store × List MemoryDef)) := do
  match s.stack, s.returned with
  | frame :: stack, returned =>
    return .again (← frameTurn a bs object s.store stack (frame.deliver returned))
  | [], some (.defs found) => return .done (s.store, found)
  | [], _ => return .done (s.store, [])

/-- Looks up bytes of an object at a place of a block. -/
noncomputable def definitions (a : Accesses) (bs : Blocks) (object : Nat) (store : Store)
    (b stop : Nat) (query : ByteSet) : Option (Store × List MemoryDef) := do
  match ← walk a bs object b stop query with
  | .done found => return (store, found)
  | .join found c intervals =>
    loop (lookUpTurn a bs object) ⟨store, [.lookup found c intervals 0], none⟩

/-- The rest of a look-up from a state. -/
noncomputable def lookUp (sc : Scope) (object : Nat) (s : LookUp) :
    Option (Store × List MemoryDef) :=
  loop (lookUpTurn sc.accesses (.of sc.blocks) object) s

variable {t u : PhiTable} {stack : List Frame} {store : Store}

theorem lookUp_of_frameTurn {frame : Frame} {s : LookUp}
    (h : frameTurn sc.accesses (.of sc.blocks) object store stack frame = some s) :
    lookUp sc object ⟨store, frame :: stack, none⟩ = lookUp sc object s := by
  refine loop_of_again ?_
  unfold lookUpTurn
  simp only [Frame.deliver_none, h, Option.bind_eq_bind, Option.bind_some, Option.pure_def]

theorem lookUp_deliver (frame : Frame) (returned : Option Returned) :
    lookUp sc object ⟨store, frame :: stack, returned⟩ =
      lookUp sc object ⟨store, frame.deliver returned :: stack, none⟩ := by
  refine loop_congr ?_
  unfold lookUpTurn
  simp only [Frame.deliver_none]

/-- The loop looks a key up, whatever frames are below. -/
def FollowsDemand (sc : Scope) (object : Nat) (t : PhiTable) (b : Fin sc.blocks.count)
    (i : Interval) (hi : i.Valid) : Prop :=
  ∀ pending, sc.Correct t pending → ∀ found intervals next rest stack,
    intervals.drop next = i :: rest →
      lookUp sc object ⟨.of t, .lookup found b intervals next :: stack, none⟩ =
        lookUp sc object ⟨.of (sc.demand object t b i hi).1.1,
          .lookup (addDef found (sc.demand object t b i hi).1.2) b intervals (next + 1) :: stack,
          none⟩

/-- The loop looks the operands of a phi up, whatever frames are below. -/
def FollowsOperands (sc : Scope) (object : Nat) (t : PhiTable)
    (blocks : List (Fin sc.blocks.count)) (i : Interval) (hi : i.Valid) (found : List MemoryDef) :
    Prop :=
  ∀ pending, sc.Correct t pending → ∀ key id preds next stack, key.bytes = i →
    preds.drop next = blocks.map Fin.val → ∃ last, preds.drop last = [] ∧
      lookUp sc object ⟨.of t, .fill key id preds next found :: stack, none⟩ =
        lookUp sc object ⟨.of (sc.operands object t blocks i hi found).1.1,
          .fill key id preds last (sc.operands object t blocks i hi found).1.2 :: stack, none⟩

/-- The loop looks some intervals at a join up, whatever frames are below. -/
def FollowsDemandAll (sc : Scope) (object : Nat) (t : PhiTable) (b : Fin sc.blocks.count)
    (opened : List Interval) (hopened : ∀ i ∈ opened, i.Valid) (found : List MemoryDef) : Prop :=
  ∀ pending, sc.Correct t pending → ∀ intervals next stack, intervals.drop next = opened →
    lookUp sc object ⟨.of t, .lookup found b intervals next :: stack, none⟩ =
      lookUp sc object ⟨.of (sc.demandAll object t b opened hopened found).1.1, stack,
        some (.defs (sc.demandAll object t b opened hopened found).1.2)⟩

theorem lookUp_demand_of_some {b : Fin sc.blocks.count} {i : Interval} {d : MemoryDef}
    (hd : t.find? ⟨b, object, i⟩ = some d) (found : List MemoryDef) {intervals rest : List Interval}
    {next : Nat} (hnext : intervals.drop next = i :: rest) :
    lookUp sc object ⟨.of t, .lookup found b intervals next :: stack, none⟩ =
      lookUp sc object ⟨.of t, .lookup (addDef found d) b intervals (next + 1) :: stack, none⟩ := by
  obtain ⟨hlt, hget, -⟩ := of_drop_eq_cons hnext
  refine lookUp_of_frameTurn ?_
  have hcache : (Store.of t).cache ⟨b, object, i⟩ = some d := hd
  simp only [frameTurn, hlt, if_true, hget, Option.bind_eq_bind, Option.bind_some, hcache,
    Option.pure_def]

/-- A new phi is opened, its operands are looked up above the frame that waits for it, and it is
closed with them. -/
theorem lookUp_demand_of_none {pending : List Nat} {b : Fin sc.blocks.count} {i : Interval}
    {operands : List MemoryDef} (hnone : t.find? ⟨b, object, i⟩ = none) (hu : sc.Correct u pending)
    (hp : u.phis[t.size]? = some ⟨⟨b, object, i⟩, []⟩)
    (hops : ∀ stack, ∃ last, ((sc.blocks.predecessors b).map Fin.val).drop last = [] ∧
      lookUp sc object ⟨.of (t.enter ⟨b, object, i⟩),
        .fill ⟨b, object, i⟩ t.size ((sc.blocks.predecessors b).map Fin.val) 0 [] :: stack, none⟩ =
      lookUp sc object ⟨.of u,
        .fill ⟨b, object, i⟩ t.size ((sc.blocks.predecessors b).map Fin.val) last operands :: stack,
        none⟩)
    (found : List MemoryDef) {intervals rest : List Interval} {next : Nat}
    (hnext : intervals.drop next = i :: rest) :
    lookUp sc object ⟨.of t, .lookup found b intervals next :: stack, none⟩ =
      lookUp sc object ⟨.of (u.fill t.size operands),
        .lookup (addDef found ((u.fill t.size operands).value t.size)) b intervals (next + 1) ::
          stack, none⟩ := by
  obtain ⟨hlt, hget, -⟩ := of_drop_eq_cons hnext
  have hcache : (Store.of t).cache ⟨b, object, i⟩ = none := hnone
  have hopen : lookUp sc object ⟨.of t, .lookup found b intervals next :: stack, none⟩ =
      lookUp sc object ⟨.of (t.enter ⟨b, object, i⟩),
        .fill ⟨b, object, i⟩ t.size ((sc.blocks.predecessors b).map Fin.val) 0 [] ::
          .lookup found b intervals (next + 1) :: stack, none⟩ := by
    refine lookUp_of_frameTurn ?_
    simp only [frameTurn, hlt, if_true, hget, Option.bind_eq_bind, Option.bind_some, hcache,
      getElem?_blocks, openPhi_of, size_of, Option.pure_def]
  obtain ⟨last, hlast, hops⟩ := hops (.lookup found b intervals (next + 1) :: stack)
  have hend : ¬ last < ((sc.blocks.predecessors b).map Fin.val).length :=
    Nat.not_lt.mpr (List.drop_eq_nil_iff.mp hlast)
  have hclose : lookUp sc object ⟨.of u,
        .fill ⟨b, object, i⟩ t.size ((sc.blocks.predecessors b).map Fin.val) last operands ::
          .lookup found b intervals (next + 1) :: stack, none⟩ =
      lookUp sc object ⟨.of (u.fill t.size operands),
        .lookup found b intervals (next + 1) :: stack,
        some (.defn ((u.fill t.size operands).value t.size))⟩ := by
    refine lookUp_of_frameTurn ?_
    simp only [frameTurn, hend, if_false, closePhi_of hu hp, Option.bind_eq_bind, Option.bind_some,
      Option.pure_def]
  rw [hopen, hops, hclose, lookUp_deliver]
  rfl

/-- The walk from the next predecessor ends by itself. -/
theorem lookUp_operands_of_done (hg : sc.blocks.Grounded) {key : PhiKey} (id : Nat)
    {preds : List Nat} {next : Nat} {a : Fin sc.blocks.count} {rest : List Nat}
    (hnext : preds.drop next = a.val :: rest) (operands : List MemoryDef) {defs : List MemoryDef}
    (hw : sc.walkFromEnd object key.bytes a = .done defs) :
    lookUp sc object ⟨store, .fill key id preds next operands :: stack, none⟩ =
      lookUp sc object ⟨store, .fill key id preds (next + 1) (addDefs operands defs) :: stack,
        none⟩ := by
  obtain ⟨hlt, hget, -⟩ := of_drop_eq_cons hnext
  have hwalk := walk_eq hg object a (sc.blocks.nodes a).length (.ofInterval key.bytes)
  unfold Scope.walkFromEnd at hw
  refine lookUp_of_frameTurn ?_
  simp only [frameTurn, hlt, if_true, hget, getElem?_blocks, hwalk, hw, Walked.of,
    Option.bind_eq_bind, Option.bind_some, Option.pure_def]

/-- The walk from the next predecessor stops at a join, whose intervals are looked up. -/
theorem lookUp_operands_of_join (hg : sc.blocks.Grounded) {key : PhiKey} (id : Nat)
    {preds : List Nat} {next : Nat} {a b : Fin sc.blocks.count} {rest : List Nat}
    (hnext : preds.drop next = a.val :: rest) (operands : List MemoryDef)
    {found defs : List MemoryDef} {opened : List Interval}
    (hw : sc.walkFromEnd object key.bytes a = .join found b opened)
    (hall : ∀ stack, lookUp sc object ⟨.of t, .lookup found b opened 0 :: stack, none⟩ =
      lookUp sc object ⟨.of u, stack, some (.defs defs)⟩) :
    lookUp sc object ⟨.of t, .fill key id preds next operands :: stack, none⟩ =
      lookUp sc object ⟨.of u, .fill key id preds (next + 1) (addDefs operands defs) :: stack,
        none⟩ := by
  obtain ⟨hlt, hget, -⟩ := of_drop_eq_cons hnext
  have hwalk := walk_eq hg object a (sc.blocks.nodes a).length (.ofInterval key.bytes)
  unfold Scope.walkFromEnd at hw
  have hstep : lookUp sc object ⟨.of t, .fill key id preds next operands :: stack, none⟩ =
      lookUp sc object ⟨.of t, .lookup found b opened 0 ::
        .fill key id preds (next + 1) operands :: stack, none⟩ := by
    refine lookUp_of_frameTurn ?_
    simp only [frameTurn, hlt, if_true, hget, getElem?_blocks, hwalk, hw, Walked.of,
      Option.bind_eq_bind, Option.bind_some, Option.pure_def]
  rw [hstep, hall, lookUp_deliver]
  rfl

theorem lookUp_demandAll_nil {found : List MemoryDef} {b next : Nat} {intervals : List Interval}
    (hnext : intervals.drop next = []) :
    lookUp sc object ⟨store, .lookup found b intervals next :: stack, none⟩ =
      lookUp sc object ⟨store, stack, some (.defs found)⟩ := by
  have hend : ¬ next < intervals.length := Nat.not_lt.mpr (List.drop_eq_nil_iff.mp hnext)
  refine lookUp_of_frameTurn ?_
  simp only [frameTurn, hend, if_false, Option.pure_def]

theorem follows_demand (hg : sc.blocks.Grounded) (object : Nat) :
    (∀ t b i hi, FollowsDemand sc object t b i hi) ∧
    (∀ t blocks i hi found, FollowsOperands sc object t blocks i hi found) ∧
    (∀ t b opened hopened found, FollowsDemandAll sc object t b opened hopened found) := by
  have hresult := Scope.demand_result hg object
  refine Scope.demand.mutual_induct sc object (FollowsDemand sc object) (FollowsOperands sc object)
    (FollowsDemandAll sc object) ?_ ?_ ?_ ?_ ?_ ?_ ?_
  -- one key: it has a phi, or a new one is opened and closed
  · intro t b i hi d hd pending h found intervals next rest stack hnext
    rw [Scope.demand_of_some hd]
    exact lookUp_demand_of_some hd found hnext
  · intro t b i hi hnone ih pending h found intervals next rest stack hnext
    have henter := h.enter (PhiTable.not_has_of_find?_eq_none hnone)
    have hr := hresult.2.1 _ (sc.blocks.predecessors b) i hi [] _ henter
    have hnew := hr.extends_table _ _ (t.getElem?_enter_self ⟨b, object, i⟩)
    rw [Scope.demand_of_none hnone]
    refine lookUp_demand_of_none hnone hr.correct hnew ?_ found hnext
    intro stack
    exact ih _ henter ⟨b, object, i⟩ t.size _ 0 stack rfl rfl
  -- the operands of a phi: the walk from the next block ends by itself or at a join
  · intro t i hi found pending h key id preds next stack hkey hnext
    refine ⟨next, hnext, ?_⟩
    rw [Scope.operands]
  · intro t i hi found a rest defs hw ih pending h key id preds next stack hkey hnext
    rw [Scope.operands_of_done hw]
    obtain ⟨last, hlast, hrest⟩ := ih pending h key id preds (next + 1) stack hkey
      (of_drop_eq_cons hnext).2.2
    refine ⟨last, hlast, Eq.trans ?_ hrest⟩
    exact lookUp_operands_of_done hg id hnext found (by rw [hkey]; exact hw)
  · intro t i hi found a rest defs b opened hw hopened r ih _ ih' pending h key id preds next stack
      hkey hnext
    rw [Scope.operands_of_join hw hopened]
    have hr := hresult.2.2 t b opened hopened defs pending h
    obtain ⟨last, hlast, hrest⟩ := ih' pending hr.correct key id preds (next + 1) stack hkey
      (of_drop_eq_cons hnext).2.2
    refine ⟨last, hlast, Eq.trans ?_ hrest⟩
    refine lookUp_operands_of_join hg id hnext found (by rw [hkey]; exact hw) ?_
    intro stack
    exact ih pending h opened 0 stack rfl
  -- the intervals at a join, one after the other
  · intro t b found hopened _ pending h intervals next stack hnext
    rw [Scope.demandAll]
    exact lookUp_demandAll_nil hnext
  · intro t b found i rest hopened r _ ih _ _ ih' pending h intervals next stack hnext
    have hi : i.Valid := hopened i List.mem_cons_self
    have hrest : ∀ j ∈ rest, j.Valid := fun j hj => hopened j (List.mem_cons_of_mem _ hj)
    have hr := hresult.1 t b i hi pending h
    rw [Scope.demandAll_cons hi hrest]
    exact (ih pending h found intervals next rest stack hnext).trans
      (ih' pending hr.correct intervals (next + 1) stack (of_drop_eq_cons hnext).2.2)

/-- Looking up bytes of an object does not fail, and gives what the recursion gives. -/
theorem definitions_of (hg : sc.blocks.Grounded) (h : sc.Correct t []) (b : Fin sc.blocks.count)
    (stop : Nat) (query : ByteSet) (hq : query.Valid) :
    definitions sc.accesses (.of sc.blocks) object (.of t) b stop query =
      some (.of (sc.definitions object t b stop query hq).1,
        (sc.definitions object t b stop query hq).2) := by
  have hwalk := walk_eq hg object b stop query
  unfold definitions Scope.definitions
  split
  case h_1 found hw =>
    rw [hwalk, hw]
    rfl
  case h_2 found c opened hw =>
    have hvalid := sc.valid_of_walk hq hw
    rw [hw] at hwalk
    rw [hwalk]
    exact ((follows_demand hg object).2.2 t c opened hvalid found [] h opened 0 [] rfl).trans
      (loop_of_done rfl)

end Checked

end MemDep
