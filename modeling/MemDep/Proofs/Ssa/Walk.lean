import MemDep.Proofs.AccessGraph.Blocks
import MemDep.Proofs.Ssa.Scan

/-!
# What a walk finds

A walk backwards through blocks ends because it passes no block twice, so the bound on the blocks
it may pass plays no role: `Scope.Walks` describes walks without it.

`Scope.Finds` says which writes a search for one byte finds if it goes on at every join. For the
bytes that are open, a walk finds some of these writes; the others are found at the start of the
join where the walk ends, from a byte of an interval that is open there.
-/

namespace MemDep

open Relation

namespace Walk

variable {count : Nat}

def found : Walk count → List MemoryDef
  | .done defs => defs
  | .join defs _ _ => defs

/-- A walk ended at a join and left an interval open. -/
def Open : Walk count → Fin count → Interval → Prop
  | .done _, _, _ => False
  | .join _ b opened, c, i => b = c ∧ i ∈ opened

end Walk

namespace Scope

variable {sc : Scope} {object : Nat}

/-! ## Walks without a bound -/

/-- A walk from a place of a block, with bytes that are open and definitions that were found. -/
inductive Walks (sc : Scope) (object : Nat) :
    Fin sc.blocks.count → Nat → ByteSet → List MemoryDef → Walk sc.blocks.count → Prop where
  | covered {b stop opened found} (hc : (sc.scanBlock object b stop opened found).covered = true) :
      Walks sc object b stop opened found (.done (sc.scanBlock object b stop opened found).found)
  | first {b stop opened found} (hc : (sc.scanBlock object b stop opened found).covered = false)
      (hb : sc.blocks.predecessors b = []) :
      Walks sc object b stop opened found (.done (sc.scanBlock object b stop opened found).found)
  | join {b stop opened found} (hc : (sc.scanBlock object b stop opened found).covered = false)
      (hb : sc.blocks.predecessors b ≠ []) (hj : ∀ a, ¬ sc.blocks.Chases a b) :
      Walks sc object b stop opened found
        (.join (sc.scanBlock object b stop opened found).found b
          (sc.scanBlock object b stop opened found).opened.intervals)
  | chase {a b stop opened found r} (hc : (sc.scanBlock object b stop opened found).covered = false)
      (hb : sc.blocks.Chases a b)
      (hw : Walks sc object a (sc.blocks.nodes a).length
        (sc.scanBlock object b stop opened found).opened
        (sc.scanBlock object b stop opened found).found r) :
      Walks sc object b stop opened found r

/-- A walk with a bound that its past does not exhaust. The blocks that it has passed are distinct,
and it can go back to none of them. -/
theorem walks_walkFrom (hg : sc.blocks.Grounded) {blocks : Nat} (visited : List (Fin sc.blocks.count))
    {b : Fin sc.blocks.count} {stop : Nat} {opened : ByteSet} {found : List MemoryDef}
    (hnodup : (b :: visited).Nodup) (hpast : ∀ v ∈ visited, TransGen sc.blocks.Chases b v)
    (hbound : visited.length + blocks = sc.blocks.count) :
    sc.Walks object b stop opened found (sc.walkFrom object blocks b stop opened found) := by
  induction blocks generalizing visited b stop opened found with
  | zero =>
    have hle := List.Nodup.length_le_card hnodup
    rw [Fintype.card_fin, List.length_cons] at hle
    omega
  | succ blocks ih =>
    simp only [walkFrom]
    split
    case isTrue hc => exact .covered hc
    case isFalse hc =>
      have hc := Bool.eq_false_iff.mpr hc
      split
      case h_1 hb => exact .first hc hb
      case h_2 a ha =>
        split
        case isTrue he => exact .join hc (by simp [ha]) fun _ h => h.2 he
        case isFalse he =>
          -- the block before is a new one, for otherwise it would lead back to itself
          have hchase : sc.blocks.Chases a b := ⟨ha, he⟩
          have hpast' : ∀ v ∈ b :: visited, TransGen sc.blocks.Chases a v := by
            intro v hv
            rcases List.mem_cons.mp hv with rfl | hv
            · exact .single hchase
            · exact .head hchase (hpast v hv)
          have hnew : a ∉ b :: visited := by
            intro hmem
            exact hg a (hpast' a hmem)
          refine .chase hc hchase (ih (b :: visited) ?_ hpast' ?_)
          · exact List.nodup_cons.mpr ⟨hnew, hnodup⟩
          · rw [List.length_cons]
            omega
      case h_3 a a' rest hb =>
        refine .join hc (by simp [hb]) ?_
        intro _ h
        rw [h.1] at hb
        simp at hb

theorem walks_walk (hg : sc.blocks.Grounded) (object : Nat) (b : Fin sc.blocks.count) (stop : Nat)
    (opened : ByteSet) : sc.Walks object b stop opened [] (sc.walk object b stop opened) :=
  walks_walkFrom hg [] (List.nodup_singleton b) (by simp) (by simp)

/-! ## Searching for one byte -/

/-- A search backwards for a byte of an object, from place `stop` of a block, finds a write of `w`. -/
inductive Finds (sc : Scope) (object byte w : Nat) : Fin sc.blocks.count → Nat → Prop where
  /-- The node before writes the byte. -/
  | write {b stop} (hn : (sc.blocks.nodes b)[stop]? = some w)
      (hw : sc.accesses.Defines object byte w) : Finds sc object byte w b (stop + 1)
  /-- The node before does not hide what is found from it on. -/
  | pass {b stop n} (hn : (sc.blocks.nodes b)[stop]? = some n)
      (hh : ¬ sc.accesses.Hides object byte n) (hf : Finds sc object byte w b stop) :
      Finds sc object byte w b (stop + 1)
  /-- At the start of a block, the search goes on at the end of a block before. -/
  | enter {a b} (ha : a ∈ sc.blocks.predecessors b)
      (hf : Finds sc object byte w a (sc.blocks.nodes a).length) : Finds sc object byte w b 0

theorem reverse_take_succ {b : Fin sc.blocks.count} {stop n : Nat}
    (hn : (sc.blocks.nodes b)[stop]? = some n) :
    ((sc.blocks.nodes b).take (stop + 1)).reverse = n :: ((sc.blocks.nodes b).take stop).reverse := by
  rw [List.take_add_one, hn]
  simp

theorem finds_succ_iff {byte w : Nat} {b : Fin sc.blocks.count} {stop n : Nat}
    (hn : (sc.blocks.nodes b)[stop]? = some n) : sc.Finds object byte w b (stop + 1) ↔
      n = w ∧ sc.accesses.Defines object byte w ∨
        ¬ sc.accesses.Hides object byte n ∧ sc.Finds object byte w b stop := by
  constructor
  · intro h
    cases h with
    | write hn' hw => exact .inl ⟨Option.some.inj (hn.symm.trans hn'), hw⟩
    | pass hn' hh hf =>
      obtain rfl := Option.some.inj (hn.symm.trans hn')
      exact .inr ⟨hh, hf⟩
  · rintro (⟨rfl, hw⟩ | ⟨hh, hf⟩)
    · exact .write hn hw
    · exact .pass hn hh hf

/-- Within the nodes before its place a search does what a scan does. -/
theorem finds_iff {byte w : Nat} {b : Fin sc.blocks.count} {stop : Nat}
    (hstop : stop ≤ (sc.blocks.nodes b).length) : sc.Finds object byte w b stop ↔
      sc.Sees object byte w ((sc.blocks.nodes b).take stop).reverse ∨
        (∀ n ∈ ((sc.blocks.nodes b).take stop).reverse, ¬ sc.accesses.Hides object byte n) ∧
          sc.Finds object byte w b 0 := by
  induction stop with
  | zero => simp [Sees]
  | succ stop ih =>
    have hn := List.getElem?_eq_getElem (Nat.lt_of_succ_le hstop)
    rw [finds_succ_iff hn, reverse_take_succ hn, ih (Nat.le_of_succ_le hstop), Sees,
      List.forall_mem_cons]
    grind

/-! ## What a walk finds -/

/-- What a scan leaves open is found past the nodes that it scanned. -/
theorem finds_of_mem_opened {byte w : Nat} {b : Fin sc.blocks.count} {stop : Nat} {opened : ByteSet}
    {found : List MemoryDef} (hv : opened.Valid) (hstop : stop ≤ (sc.blocks.nodes b).length)
    (hb : byte ∈ (sc.scanBlock object b stop opened found).opened)
    (h : sc.Finds object byte w b 0) : sc.Finds object byte w b stop :=
  (finds_iff hstop).mpr (.inr ⟨((mem_opened_scan hv).mp hb).2, h⟩)

theorem finds_of_mem_scanBlock {b : Fin sc.blocks.count} {stop : Nat} {opened : ByteSet}
    {found : List MemoryDef} (hv : opened.Valid) (hstop : stop ≤ (sc.blocks.nodes b).length)
    {d : MemoryDef} (hd : d ∈ (sc.scanBlock object b stop opened found).found) :
    d ∈ found ∨ ∃ w, d = .write w ∧ ∃ byte ∈ opened, sc.Finds object byte w b stop := by
  rcases (mem_found_scan hv).mp hd with hd | ⟨w, hw, byte, hbyte, hs⟩
  · exact .inl hd
  · exact .inr ⟨w, hw, byte, hbyte, (finds_iff hstop).mpr (.inl hs)⟩

theorem finds_of_chases {byte w : Nat} {a b : Fin sc.blocks.count} (h : sc.blocks.Chases a b)
    (hf : sc.Finds object byte w a (sc.blocks.nodes a).length) : sc.Finds object byte w b 0 :=
  .enter (by simp [h.1]) hf

/-- The definitions that a walk adds are found by a search for an open byte. -/
theorem Walks.found_sound {b : Fin sc.blocks.count} {stop : Nat} {opened : ByteSet}
    {found : List MemoryDef} {r : Walk sc.blocks.count} (h : sc.Walks object b stop opened found r)
    (hv : opened.Valid) (hstop : stop ≤ (sc.blocks.nodes b).length) {d : MemoryDef}
    (hd : d ∈ r.found) :
    d ∈ found ∨ ∃ w, d = .write w ∧ ∃ byte ∈ opened, sc.Finds object byte w b stop := by
  induction h with
  | covered => exact finds_of_mem_scanBlock hv hstop hd
  | first => exact finds_of_mem_scanBlock hv hstop hd
  | join => exact finds_of_mem_scanBlock hv hstop hd
  | chase _ hb _ ih =>
    rcases ih (sc.valid_scan hv) (Nat.le_refl _) hd with hd | ⟨w, hw, byte, hbyte, hf⟩
    · exact finds_of_mem_scanBlock hv hstop hd
    · refine .inr ⟨w, hw, byte, ((mem_opened_scan hv).mp hbyte).1, ?_⟩
      exact finds_of_mem_opened hv hstop hbyte (finds_of_chases hb hf)

/-- What is found from an interval that a walk left open is found by a search for an open byte. -/
theorem Walks.open_sound {b c : Fin sc.blocks.count} {stop : Nat} {opened : ByteSet}
    {found : List MemoryDef} {r : Walk sc.blocks.count} (h : sc.Walks object b stop opened found r)
    (hv : opened.Valid) (hstop : stop ≤ (sc.blocks.nodes b).length) {i : Interval}
    (hi : r.Open c i) {byte w : Nat} (hbyte : byte ∈ i) (hf : sc.Finds object byte w c 0) :
    byte ∈ opened ∧ sc.Finds object byte w b stop := by
  induction h with
  | covered => exact hi.elim
  | first => exact hi.elim
  | join =>
    obtain ⟨rfl, hi⟩ := hi
    have hmem : byte ∈ (sc.scanBlock object _ _ _ _).opened := ⟨i, hi, hbyte⟩
    exact ⟨((mem_opened_scan hv).mp hmem).1, finds_of_mem_opened hv hstop hmem hf⟩
  | chase _ hb _ ih =>
    obtain ⟨hmem, hf⟩ := ih (sc.valid_scan hv) (Nat.le_refl _) hi
    refine ⟨((mem_opened_scan hv).mp hmem).1, ?_⟩
    exact finds_of_mem_opened hv hstop hmem (finds_of_chases hb hf)

theorem Walks.found_subset {b : Fin sc.blocks.count} {stop : Nat} {opened : ByteSet}
    {found : List MemoryDef} {r : Walk sc.blocks.count} (h : sc.Walks object b stop opened found r)
    (hv : opened.Valid) {d : MemoryDef} (hd : d ∈ (sc.scanBlock object b stop opened found).found) :
    d ∈ r.found := by
  induction h with
  | covered => exact hd
  | first => exact hd
  | join => exact hd
  | chase _ _ _ ih => exact ih (sc.valid_scan hv) ((mem_found_scan (sc.valid_scan hv)).mpr (.inl hd))

/-- A walk finds a node right before its place that may touch an open byte. -/
theorem Walks.mem_found {b : Fin sc.blocks.count} {stop byte w : Nat} {opened : ByteSet}
    {found : List MemoryDef} {r : Walk sc.blocks.count}
    (h : sc.Walks object b (stop + 1) opened found r) (hv : opened.Valid) (hbyte : byte ∈ opened)
    (hn : (sc.blocks.nodes b)[stop]? = some w) (hw : sc.accesses.Defines object byte w) :
    .write w ∈ r.found := by
  refine h.found_subset hv ((mem_found_scan hv).mpr (.inr ⟨w, rfl, byte, hbyte, ?_⟩))
  rw [reverse_take_succ hn]
  exact .inl ⟨rfl, hw⟩

/-- A walk past a node that does not hide an open byte goes on as a walk from before the node. -/
theorem Walks.pass {b : Fin sc.blocks.count} {stop byte n : Nat} {opened : ByteSet}
    {found : List MemoryDef} {r : Walk sc.blocks.count}
    (h : sc.Walks object b (stop + 1) opened found r) (hv : opened.Valid) (hbyte : byte ∈ opened)
    (hn : (sc.blocks.nodes b)[stop]? = some n) (hh : ¬ sc.accesses.Hides object byte n) :
    ∃ found', byte ∈ closeAll object (sc.accesses.writes n) opened ∧
      sc.Walks object b stop (closeAll object (sc.accesses.writes n) opened) found' r := by
  have hmem : byte ∈ closeAll object (sc.accesses.writes n) opened := mem_closeAll.mpr ⟨hbyte, hh⟩
  have hopen : (closeAll object (sc.accesses.writes n) opened).isEmpty = false := by
    rw [Bool.eq_false_iff]
    intro he
    exact (ByteSet.isEmpty_iff (hv.closeAll object _)).mp he byte hmem
  have hscan : ∃ found', sc.scanBlock object b (stop + 1) opened found =
      sc.scanBlock object b stop (closeAll object (sc.accesses.writes n) opened) found' := by
    simp only [scanBlock, reverse_take_succ hn, scan, hopen, Bool.false_eq_true, if_false]
    exact ⟨_, rfl⟩
  obtain ⟨found', hscan⟩ := hscan
  refine ⟨found', hmem, ?_⟩
  cases h with
  | covered hc =>
    rw [hscan] at hc ⊢
    exact .covered hc
  | first hc hb =>
    rw [hscan] at hc ⊢
    exact .first hc hb
  | join hc hb hj =>
    rw [hscan] at hc ⊢
    exact .join hc hb hj
  | chase hc hb hw =>
    rw [hscan] at hc hw
    exact .chase hc hb hw

/-- A walk from the start of a block where another block leads to goes on at the end of the block
before, or the block is a join and every open byte is in an interval that is left open. -/
theorem Walks.enter {a b : Fin sc.blocks.count} {opened : ByteSet} {found : List MemoryDef}
    {r : Walk sc.blocks.count} (h : sc.Walks object b 0 opened found r)
    (ha : a ∈ sc.blocks.predecessors b) :
    sc.Walks object a (sc.blocks.nodes a).length opened found r ∨
      ∀ byte ∈ opened, ∃ i, r.Open b i ∧ byte ∈ i := by
  cases h with
  | covered hc => simp [scanBlock, scan] at hc
  | first _ hb => simp [hb] at ha
  | join _ _ _ =>
    refine .inr ?_
    rintro byte ⟨i, hi, hbyte⟩
    exact ⟨i, ⟨rfl, hi⟩, hbyte⟩
  | chase _ hb hw =>
    rw [hb.1] at ha
    obtain rfl := List.mem_singleton.mp ha
    exact .inl hw

end Scope

end MemDep
