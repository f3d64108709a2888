import MemDep.Proofs.Ssa.Machine
import MemDep.Proofs.Ssa.Resolve

/-!
# The keys that are opened

Two invariants of the machine that looks definitions up. A step opens a phi only for a key that has
none, so no key is opened twice (`Scope.keys_step`). And removing bytes makes no new ends of
intervals other than the ends of what is removed, so the ends of all keys are among those of the
questions and those of the writes (`Machine.Within`). Hence only finitely many keys can be opened,
whatever the order of the questions.
-/

namespace MemDep

open Relation

/-! ## Ends of open intervals -/

/-- Both ends of an interval are among some numbers. -/
def Interval.Within (ends : Nat → Prop) (i : Interval) : Prop := ends i.start ∧ ends i.stop

def ByteSet.Within (ends : Nat → Prop) (s : ByteSet) : Prop := ∀ i ∈ s.intervals, i.Within ends

variable {ends : Nat → Prop}

theorem ByteSet.within_ofInterval {i : Interval} (h : i.Within ends) :
    (ByteSet.ofInterval i).Within ends := by
  intro j hj
  unfold ByteSet.ofInterval at hj
  split at hj
  case isTrue => exact List.mem_singleton.mp hj ▸ h
  case isFalse => exact absurd hj List.not_mem_nil

theorem Interval.Within.minus {i cut j : Interval} (hi : i.Within ends) (hcut : cut.Within ends)
    (hj : j ∈ i.minus cut) : j.Within ends := by
  unfold Interval.minus at hj
  rcases List.mem_append.mp hj with hj | hj
  · split at hj
    · rw [List.mem_singleton.mp hj]
      exact ⟨hi.1, hcut.1⟩
    · exact absurd hj List.not_mem_nil
  · split at hj
    · rw [List.mem_singleton.mp hj]
      exact ⟨hcut.2, hi.2⟩
    · exact absurd hj List.not_mem_nil

theorem ByteSet.Within.remove {s : ByteSet} (h : s.Within ends) {cut : Interval}
    (hcut : cut.Within ends) : (s.remove cut).Within ends := by
  unfold ByteSet.remove
  split
  · intro i hi
    obtain ⟨j, hj, hi⟩ := List.mem_flatMap.mp hi
    split at hi
    · exact (h j hj).minus hcut hi
    · rw [List.mem_singleton.mp hi]
      exact h j hj
  · exact h

def Write.Within (ends : Nat → Prop) (w : Write) : Prop :=
  ∀ i, w.region.interval? = some i → i.Within ends

theorem ByteSet.Within.close {s : ByteSet} (h : s.Within ends) {w : Write} (hw : w.Within ends)
    (object : Nat) : (w.close object s).Within ends := by
  unfold Write.close
  split
  · split
    case h_1 i hi => exact h.remove (hw i hi)
    case h_2 => exact h
  · exact h

theorem ByteSet.Within.closeAll {s : ByteSet} (h : s.Within ends) {writes : List Write}
    (hw : ∀ w ∈ writes, w.Within ends) (object : Nat) :
    (MemDep.closeAll object writes s).Within ends := by
  unfold MemDep.closeAll
  split
  · exact h
  · refine List.foldlRecOn _ _ h ?_
    intro s hs w hmem
    exact hs.close (hw w hmem) object

namespace Scope

def WritesWithin (sc : Scope) (ends : Nat → Prop) : Prop :=
  ∀ n, ∀ w ∈ sc.accesses.writes n, w.Within ends

variable {sc : Scope} {object : Nat}

theorem within_scan (hw : sc.WritesWithin ends) {nodes : List Nat} {opened : ByteSet}
    {found : List MemoryDef} (h : opened.Within ends) :
    (sc.scan object nodes opened found).opened.Within ends := by
  induction nodes generalizing opened found with
  | nil => exact h
  | cons n before ih =>
    have hclose := h.closeAll (hw n) object
    simp only [scan]
    split
    · exact hclose
    · exact ih hclose

end Scope

/-! ## Ends within a run -/

def PhiTable.Within (ends : Nat → Prop) (t : PhiTable) : Prop :=
  ∀ key ∈ t.keys, key.bytes.Within ends

def Frame.Within {count : Nat} (ends : Nat → Prop) (f : Frame count) : Prop :=
  ∀ i ∈ Scope.intervals f, i.Within ends

def Control.Within {count : Nat} (ends : Nat → Prop) : Control count → Prop
  | .walk _ _ opened _ => opened.Within ends
  | _ => True

/-- All intervals of a state have their ends among some numbers. -/
structure Machine.Within {count : Nat} (ends : Nat → Prop) (m : Machine count) : Prop where
  table : m.table.Within ends
  stack : ∀ f ∈ m.stack, f.Within ends
  control : m.control.Within ends

namespace Scope

variable {sc : Scope} {object : Nat}

theorem within_stepWalk (hw : sc.WritesWithin ends) {t : PhiTable}
    {stack : List (Frame sc.blocks.count)} {b : Fin sc.blocks.count} {stop : Nat} {opened : ByteSet}
    {found : List MemoryDef} (ht : t.Within ends) (hs : ∀ f ∈ stack, f.Within ends)
    (ho : opened.Within ends) :
    (sc.stepWalk object t stack b stop opened found).Within ends := by
  have hscan : (sc.scanBlock object b stop opened found).opened.Within ends := within_scan hw ho
  have hjoin : ∀ f ∈ Frame.lookup (sc.scanBlock object b stop opened found).found b
      (sc.scanBlock object b stop opened found).opened.intervals :: stack, f.Within ends :=
    List.forall_mem_cons.mpr ⟨hscan, hs⟩
  simp only [stepWalk]
  split
  · exact ⟨ht, hs, trivial⟩
  · split
    · exact ⟨ht, hs, trivial⟩
    · split
      · exact ⟨ht, hjoin, trivial⟩
      · exact ⟨ht, hs, hscan⟩
    · exact ⟨ht, hjoin, trivial⟩

theorem within_stepFrame {t : PhiTable} {stack : List (Frame sc.blocks.count)}
    {f : Frame sc.blocks.count} (ht : t.Within ends) (hs : ∀ f ∈ stack, f.Within ends)
    (hf : f.Within ends) : (sc.stepFrame object t stack f).Within ends := by
  unfold stepFrame
  split
  case h_1 => exact ⟨ht, hs, trivial⟩
  case h_2 found b i opened =>
    obtain ⟨hi, ho⟩ := List.forall_mem_cons.mp hf
    have hrest : ∀ found' : List MemoryDef,
        ∀ f ∈ Frame.lookup found' b opened :: stack, f.Within ends :=
      fun _ => List.forall_mem_cons.mpr ⟨ho, hs⟩
    split
    · exact ⟨ht, hrest _, trivial⟩
    · refine ⟨?_, List.forall_mem_cons.mpr ⟨by simpa [Frame.Within, intervals], hrest _⟩, trivial⟩
      intro key hkey
      rw [PhiTable.keys_enter] at hkey
      rcases List.mem_append.mp hkey with hkey | hkey
      · exact ht key hkey
      · exact List.mem_singleton.mp hkey ▸ hi
  case h_3 id operands =>
    refine ⟨?_, hs, trivial⟩
    unfold PhiTable.Within
    rw [PhiTable.keys_fill]
    exact ht
  case h_4 key id a preds operands =>
    have hkey : key.bytes.Within ends := hf _ (List.mem_singleton_self _)
    exact ⟨ht, List.forall_mem_cons.mpr ⟨hf, hs⟩, ByteSet.within_ofInterval hkey⟩

theorem within_step (hw : sc.WritesWithin ends) {m m' : Machine sc.blocks.count}
    (h : m.Within ends) (hstep : sc.step object m = some m') : m'.Within ends := by
  rcases step_cases hstep with ⟨b, stop, opened, found, hc, rfl⟩ | ⟨f, stack, hs, rfl⟩ |
    ⟨f, f', stack, hs, rfl, hf⟩
  · have hcontrol := h.control
    rw [hc] at hcontrol
    exact within_stepWalk hw h.table h.stack hcontrol
  · have hstack := h.stack
    rw [hs] at hstack
    obtain ⟨hf, hrest⟩ := List.forall_mem_cons.mp hstack
    exact within_stepFrame h.table hrest hf
  · have hstack := h.stack
    rw [hs] at hstack
    obtain ⟨hwf, hrest⟩ := List.forall_mem_cons.mp hstack
    refine ⟨h.table, List.forall_mem_cons.mpr ⟨?_, hrest⟩, trivial⟩
    unfold Frame.Within
    rwa [hf]

theorem within_steps (hw : sc.WritesWithin ends) {m m' : Machine sc.blocks.count}
    (h : m.Within ends) (hsteps : sc.Steps object m m') : m'.Within ends := by
  induction hsteps with
  | refl => exact h
  | tail _ hstep ih => exact within_step hw ih hstep

/-! ## Opening keys -/

theorem table_stepWalk (t : PhiTable) (stack : List (Frame sc.blocks.count))
    (b : Fin sc.blocks.count) (stop : Nat) (opened : ByteSet) (found : List MemoryDef) :
    (sc.stepWalk object t stack b stop opened found).table = t := by
  unfold stepWalk
  simp only
  split
  · rfl
  · split
    · rfl
    · split <;> rfl
    · rfl

theorem keys_stepFrame (t : PhiTable) (stack : List (Frame sc.blocks.count))
    (f : Frame sc.blocks.count) : (sc.stepFrame object t stack f).table.keys = t.keys ∨
      ∃ key, key ∉ t.keys ∧ (sc.stepFrame object t stack f).table.keys = t.keys ++ [key] := by
  unfold stepFrame
  split
  case h_1 => exact .inl rfl
  case h_2 found b i opened =>
    split
    case h_1 => exact .inl rfl
    case h_2 hnone =>
      refine .inr ⟨⟨b, object, i⟩, ?_, t.keys_enter _⟩
      rw [PhiTable.mem_keys]
      exact PhiTable.not_has_of_find?_eq_none hnone
  case h_3 => exact .inl (t.keys_fill _ _)
  case h_4 => exact .inl rfl

/-- A step opens at most one key, and only one that was not opened before. -/
theorem keys_step {m m' : Machine sc.blocks.count} (h : sc.step object m = some m') :
    m'.table.keys = m.table.keys ∨
      ∃ key, key ∉ m.table.keys ∧ m'.table.keys = m.table.keys ++ [key] := by
  rcases step_cases h with ⟨b, stop, opened, found, _, rfl⟩ | ⟨f, stack, _, rfl⟩ |
    ⟨f, f', stack, _, rfl, _⟩
  · exact .inl (by rw [table_stepWalk])
  · exact keys_stepFrame _ _ _
  · exact .inl rfl

/-- A run opens keys after those that were opened before, and none of them twice. -/
theorem keys_steps {m m' : Machine sc.blocks.count} (h : sc.Steps object m m') :
    m.table.keys <+: m'.table.keys ∧ (m.table.keys.Nodup → m'.table.keys.Nodup) := by
  induction h with
  | refl => exact ⟨List.prefix_refl _, id⟩
  | @tail n m' _ hstep ih =>
    obtain ⟨hpre, hnodup⟩ := ih
    rcases keys_step hstep with heq | ⟨key, hkey, heq⟩
    · rw [heq]
      exact ⟨hpre, hnodup⟩
    · rw [heq]
      refine ⟨hpre.trans (List.prefix_append _ _), ?_⟩
      intro h
      have hdisjoint : n.table.keys.Disjoint [key] := by
        rw [List.disjoint_singleton]
        exact hkey
      exact (hnodup h).append (List.nodup_singleton key) hdisjoint

end Scope

/-! ## Opening keys in questions -/

/-- The second table is the first one after questions and reads whose ends are among some numbers:
it has the keys of the first one and new ones after them, all distinct and with such ends. -/
structure PhiTable.Opens (ends : Nat → Prop) (t u : PhiTable) : Prop where
  initial : t.keys <+: u.keys
  nodup : t.keys.Nodup → u.keys.Nodup
  within : t.Within ends → u.Within ends

theorem PhiTable.Opens.refl (t : PhiTable) : t.Opens ends t := ⟨List.prefix_refl _, id, id⟩

theorem PhiTable.Opens.trans {t u v : PhiTable} (h : t.Opens ends u) (k : u.Opens ends v) :
    t.Opens ends v :=
  ⟨h.initial.trans k.initial, fun hn => k.nodup (h.nodup hn), fun hw => k.within (h.within hw)⟩

def Region.knownEnds (r : Region) : List Nat :=
  match r.interval? with
  | some i => [i.start, i.stop]
  | none => []

theorem Region.within_of_knownEnds {r : Region} (h : ∀ n ∈ r.knownEnds, ends n) {i : Interval}
    (hi : r.interval? = some i) : i.Within ends := by
  unfold Region.knownEnds at h
  rw [hi] at h
  exact ⟨h _ (by simp), h _ (by simp)⟩

namespace Scope

/-- Some numbers hold the ends of the whole of an object, and the known ends of all writes. -/
structure Bounds (sc : Scope) (ends : Nat → Prop) : Prop where
  full : Interval.Within ends ⟨0, Offset.limit⟩
  writes : sc.WritesWithin ends

variable {sc : Scope} {object : Nat}

theorem Bounds.within_bytes (h : sc.Bounds ends) {r : Region} (hr : ∀ n ∈ r.knownEnds, ends n) :
    r.bytes.Within ends := by
  unfold Region.bytes
  split
  case h_1 hi => exact ByteSet.within_ofInterval (Region.within_of_knownEnds hr hi)
  case h_2 => exact ByteSet.within_ofInterval h.full

theorem opens_definitions (hg : sc.blocks.Grounded) (h : sc.Bounds ends) (t : PhiTable)
    (b : Fin sc.blocks.count) (stop : Nat) {query : ByteSet} (hq : query.Valid)
    (hends : query.Within ends) : t.Opens ends (sc.definitions object t b stop query hq).1 := by
  obtain ⟨hsteps, _⟩ : sc.Halts object (sc.start t b stop query) _ := halts_start hg t b stop query hq
  obtain ⟨hinitial, hnodup⟩ := keys_steps hsteps
  refine ⟨hinitial, hnodup, ?_⟩
  intro ht
  have hstart : (sc.start t b stop query).Within ends := ⟨ht, by simp [start], hends⟩
  exact (within_steps h.writes hstart hsteps).table

theorem opens_definitionsOfAll (hg : sc.blocks.Grounded) (h : sc.Bounds ends)
    (b : Fin sc.blocks.count) (stop : Nat) (objects : List Nat) (t : PhiTable)
    (found : List MemoryDef) :
    t.Opens ends (sc.definitionsOfAll b stop objects t found).1 := by
  induction objects generalizing t found with
  | nil => exact .refl t
  | cons object objects ih =>
    have hfull : ByteSet.full.Within ends := ByteSet.within_ofInterval h.full
    exact (opens_definitions hg h t b stop ByteSet.valid_full hfull).trans (ih _ _)

theorem opens_resolve (hg : sc.blocks.Grounded) (h : sc.Bounds ends) (objects : List Nat)
    (t : PhiTable) (n : Nat) {region : Region}
    (hr : ∀ k ∈ (sc.accesses.normalize region).knownEnds, ends k) :
    t.Opens ends (sc.resolve objects t n region).1 := by
  unfold resolve
  split
  case h_1 => exact .refl t
  case h_2 b stop _ =>
    simp only
    split
    · exact opens_definitionsOfAll hg h b stop objects t []
    · exact opens_definitions hg h t b stop _ (h.within_bytes hr)

theorem opens_resolveAll (hg : sc.blocks.Grounded) (h : sc.Bounds ends) (objects : List Nat)
    (n : Nat) (regions : List Region)
    (hr : ∀ region ∈ regions, ∀ k ∈ (sc.accesses.normalize region).knownEnds, ends k) (t : PhiTable)
    (found : List MemoryDef) : t.Opens ends (sc.resolveAll objects n regions t found).1 := by
  induction regions generalizing t found with
  | nil => exact .refl t
  | cons region regions ih =>
    obtain ⟨hregion, hregions⟩ := List.forall_mem_cons.mp hr
    exact (opens_resolve hg h objects t n hregion).trans (ih hregions _ _)

end Scope

namespace MemorySsa

theorem opens_resolveReads {s : MemorySsa} (h : s.scope.blocks.Grounded) (hb : s.scope.Bounds ends)
    {n : Nat} (hr : ∀ region ∈ s.scope.accesses.reads n,
      ∀ k ∈ (s.scope.accesses.normalize region).knownEnds, ends k) :
    s.table.Opens ends (s.resolveReads n).table := by
  unfold MemorySsa.resolveReads
  split
  case h_1 => exact .refl _
  case h_2 => exact Scope.opens_resolveAll h hb s.objects n _ hr s.table []

theorem opens_definitions {s : MemorySsa} (h : s.scope.blocks.Grounded) (hb : s.scope.Bounds ends)
    (n : Nat) {region : Region}
    (hr : ∀ k ∈ (s.scope.accesses.normalize region).knownEnds, ends k) :
    s.table.Opens ends (s.definitions n region).2.table :=
  Scope.opens_resolve h hb s.objects s.table n hr

end MemorySsa

end MemDep
