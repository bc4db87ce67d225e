import HahaDogOps.Storage.TrunkMem

/-!
# The two indexes of the free space agree

Free blocks are in the slot trees (by size, to allocate) and in the checker (by offset, to keep them apart).
`MemOk` says that both hold the same blocks; each locked section of the allocator keeps it, and does to the
blocks what its name says.
-/

namespace HahaDog.Trunk

open Avl

instance : Std.TransCmp nodeCompareSize := inferInstanceAs (Std.TransCmp (compareOn _))

theorem nodeCompareSize_eq {s s' : Slot} : nodeCompareSize s s' = .eq ↔ s.size = s'.size := Nat.compare_eq_eq

theorem nodeCompareSize_lt {s s' : Slot} : nodeCompareSize s s' = .lt ↔ s.size < s'.size := Nat.compare_eq_lt

/-- All nodes of a slot tree. -/
def nodes (t : TreeNode Slot) : List Node := t.toList.flatMap (·.chain)

/-- The slot tree of the store path `p`. -/
structure SlotsOk (p : Nat) (t : TreeNode Slot) : Prop where
  valid : Valid nodeCompareSize t
  chain : ∀ s ∈ t.toList, s.chain ≠ []
  node : ∀ s ∈ t.toList, ∀ n ∈ s.chain, n.block.size = s.size ∧ n.block.path.storePathIndex = p

/-- The state of the allocator whenever `trunk_mem_lock` is free. -/
structure MemOk (m : Mem) : Prop where
  slots : ∀ p, SlotsOk p (m.sizes p)
  checker : CheckerOk m.byId
  agree : ∀ p, ((nodes (m.sizes p)).map (·.block)).Perm ((held m.byId).filter (·.path.storePathIndex = p))

/-! ## The slot trees -/

section
variable {p : Nat} {t : TreeNode Slot} {n : Node}

/-- A change of one slot, seen from outside. -/
theorem slotsOk_edit {t' : TreeNode Slot} {x : Slot} {f : Option Slot → List Slot} (ht : SlotsOk p t)
    (hv : Valid nodeCompareSize t') (hl : t'.toList = Ordered.edit nodeCompareSize x f t.toList)
    (hnew : ∀ s ∈ f (Ordered.find? nodeCompareSize x t.toList), s.chain ≠ [] ∧
      ∀ n ∈ s.chain, n.block.size = s.size ∧ n.block.path.storePathIndex = p) :
    SlotsOk p t' ∧ (nodes t').Perm ((f (Ordered.find? nodeCompareSize x t.toList)).flatMap (·.chain) ++
      (Ordered.erase nodeCompareSize x t.toList).flatMap (·.chain)) := by
  have hmem : ∀ s ∈ t'.toList, s.chain ≠ [] ∧
      ∀ n ∈ s.chain, n.block.size = s.size ∧ n.block.path.storePathIndex = p := by
    intro s hs
    rw [hl, Ordered.mem_edit ht.valid.sorted] at hs
    rcases hs with hs | ⟨hs, -⟩
    · exact hnew s hs
    · exact ⟨ht.chain s hs, ht.node s hs⟩
  refine ⟨⟨hv, fun s hs => (hmem s hs).1, fun s hs => (hmem s hs).2⟩, ?_⟩
  rw [nodes, hl]
  exact Ordered.flatMap_edit_perm ht.valid.sorted _

theorem addToSlot_spec (ht : SlotsOk p t) (hp : n.block.path.storePathIndex = p) :
    SlotsOk p (addToSlot n t) ∧ (nodes (addToSlot n t)).Perm (n :: nodes t) := by
  have hall := Ordered.flatMap_perm ht.valid.sorted (⟨n.block.size, []⟩ : Slot) (·.chain)
  cases hf : Ordered.find? nodeCompareSize ⟨n.block.size, []⟩ t.toList with
  | none =>
    have hfind : find nodeCompareSize ⟨n.block.size, []⟩ t = none := (find_eq ht.valid.sorted).trans hf
    have hl := (toList_insert (x := (⟨n.block.size, [n]⟩ : Slot)) ht.valid).1
    have hkey : nodeCompareSize ⟨n.block.size, [n]⟩ ⟨n.block.size, []⟩ = .eq := nodeCompareSize_eq.2 rfl
    rw [Ordered.insert, Ordered.edit_key_congr hkey] at hl
    simp only [addToSlot, hfind]
    obtain ⟨hok, hperm⟩ := slotsOk_edit ht ht.valid.insert hl (by simp [hf, hp])
    refine ⟨hok, hperm.trans ?_⟩
    rw [hf] at hall ⊢
    exact hall.symm.cons n
  | some slot =>
    have hfind : find nodeCompareSize ⟨n.block.size, []⟩ t = some slot := (find_eq ht.valid.sorted).trans hf
    obtain ⟨hslot, hkey⟩ := Ordered.eq_of_find? hf
    have hsize : slot.size = n.block.size := nodeCompareSize_eq.1 hkey
    simp only [addToSlot, hfind]
    have hv : Valid nodeCompareSize (modify nodeCompareSize ⟨n.block.size, []⟩
        (fun slot => { slot with chain := n :: slot.chain }) t) := ht.valid.modify fun a ha => ha
    obtain ⟨hok, hperm⟩ := slotsOk_edit ht hv (toList_modify ht.valid.sorted) (by
      simpa [hf, hp, hsize] using fun n' hn' => hsize ▸ ht.node slot hslot n' hn')
    refine ⟨hok, hperm.trans ?_⟩
    rw [hf] at hall ⊢
    simpa [nodes] using hall.symm.cons n

/-- Another chain in a slot: the nodes of the other slots stay. -/
theorem setChain_spec (ht : SlotsOk p t) {slot : Slot} (hslot : slot ∈ t.toList) {chain : List Node}
    (hnew : ∀ n ∈ chain, n.block.size = slot.size ∧ n.block.path.storePathIndex = p) :
    SlotsOk p (setChain slot chain t) ∧ ∃ others, (nodes t).Perm (slot.chain ++ others) ∧
      (nodes (setChain slot chain t)).Perm (chain ++ others) := by
  have hall := Ordered.flatMap_perm ht.valid.sorted slot (·.chain)
  have hf : Ordered.find? nodeCompareSize slot t.toList = some slot :=
    (Ordered.find?_eq_some_iff ht.valid.sorted).2 ⟨hslot, nodeCompareSize_eq.2 rfl⟩
  rw [hf] at hall
  by_cases hc : chain = []
  · subst hc
    obtain ⟨hok, hperm⟩ := slotsOk_edit ht ht.valid.delete (toList_delete (x := slot) ht.valid).1 (by simp)
    simp only [setChain, if_true]
    exact ⟨hok, _, hall, by simpa using hperm⟩
  · have hv : Valid nodeCompareSize (modify nodeCompareSize slot (fun slot => { slot with chain := chain }) t) :=
      ht.valid.modify fun a ha => ha
    obtain ⟨hok, hperm⟩ := slotsOk_edit ht hv (toList_modify ht.valid.sorted) (by simpa [hf, hc] using hnew)
    rw [hf] at hperm
    simp only [setChain, hc, if_false]
    exact ⟨hok, _, hall, by simpa using hperm⟩

end

/-! ## The sections that change the free space -/

/-- The node is in the slot tree of its path. -/
def InPool (m : Mem) (n : Node) : Prop := n ∈ nodes (m.sizes n.block.path.storePathIndex)

/-- `m'` has the node `n` besides what `m` has. -/
structure Added (n : Node) (m m' : Mem) : Prop where
  ok : MemOk m'
  held : (held m'.byId).Perm (n.block :: held m.byId)
  pool : ∀ n', InPool m' n' ↔ n' = n ∨ InPool m n'
  files : m'.files = m.files ∧ m'.currentTrunkFileId = m.currentTrunkFileId

/-- `m'` is `m` without the node `n`. -/
structure Removed (n : Node) (m m' : Mem) : Prop where
  ok : MemOk m'
  held : (held m.byId).Perm (n.block :: held m'.byId)
  pool : ∀ n', InPool m n' ↔ n' = n ∨ InPool m' n'
  rest : m' = { m with sizes := m'.sizes, byId := m'.byId }

section
variable {m : Mem} {n : Node}

theorem memOk_init : MemOk Mem.init :=
  ⟨fun _ => ⟨Valid.nil, by simp [Mem.init], by simp [Mem.init]⟩, checkerOk_nil, fun _ => by
    simp [Mem.init, nodes, held]⟩

/-- A block in the slot trees is known to the checker, and the other way round. -/
theorem MemOk.mem_held (hm : MemOk m) {b : Block} :
    b ∈ held m.byId ↔ ∃ status, InPool m ⟨status, b⟩ := by
  have hperm := hm.agree b.path.storePathIndex
  have hiff : b ∈ (held m.byId).filter (·.path.storePathIndex = b.path.storePathIndex) ↔ b ∈ held m.byId := by simp
  rw [← hiff, ← hperm.mem_iff, List.mem_map]
  constructor
  · rintro ⟨⟨status, b'⟩, hn, rfl⟩
    exact ⟨status, hn⟩
  · rintro ⟨status, hn⟩
    exact ⟨⟨status, b⟩, hn, rfl⟩

theorem addFreeBlock_of_overlap (hm : MemOk m) (hpos : 0 < n.block.size) {writeBinLog : Bool}
    {io : Except Errno Unit} (h : ∃ c ∈ held m.byId, Overlap n.block c) :
    addFreeBlock n writeBinLog io m = (m, .error .eexist) := by
  have hcheck := freeBlockCheckDuplicate_eq hm.checker hpos
  rw [if_pos h] at hcheck
  simp only [addFreeBlock, hcheck]

/-- The memory that `trunk_add_free_block` writes when the check lets it. -/
def afterAdd (n : Node) (writeBinLog : Bool) (m : Mem) : Mem :=
  let p := n.block.path.storePathIndex
  let m' := if writeBinLog then memBinlogWrite .addSpace n.block m
    else { m with totalFreeSpace := m.totalFreeSpace + n.block.size }
  { m' with
    sizes := Function.update m.sizes p (addToSlot n (m.sizes p))
    byId := (freeBlockInsert n.block m.byId).1 }

/-- **Adding a block** that overlaps no free one: both indexes get it. -/
theorem addFreeBlock_spec (hm : MemOk m) (hpos : 0 < n.block.size)
    (hfree : ∀ c ∈ held m.byId, ¬ Overlap n.block c) (writeBinLog : Bool) (io : Except Errno Unit) :
    addFreeBlock n writeBinLog io m = (afterAdd n writeBinLog m, if writeBinLog then io else .ok ()) ∧
      Added n m (afterAdd n writeBinLog m) := by
  obtain ⟨hins, hchecker, hheld⟩ := freeBlockInsert_spec hm.checker hpos hfree
  have hcheck := freeBlockCheckDuplicate_eq hm.checker hpos
  rw [if_neg (by simpa using hfree)] at hcheck
  obtain ⟨p, hp⟩ : ∃ p, n.block.path.storePathIndex = p := ⟨_, rfl⟩
  obtain ⟨hslots, hnodes⟩ := addToSlot_spec (hm.slots p) hp
  constructor
  · cases writeBinLog with
    | true =>
      cases io <;> simp [addFreeBlock, hcheck, afterAdd, memBinlogWrite, hins]
    | false => simp [addFreeBlock, hcheck, afterAdd, hins]
  have hsizes : (afterAdd n writeBinLog m).sizes = Function.update m.sizes p (addToSlot n (m.sizes p)) := by
    simp only [afterAdd, hp]
  have hbyId : (afterAdd n writeBinLog m).byId = (freeBlockInsert n.block m.byId).1 := rfl
  refine ⟨⟨fun q => ?_, hchecker, fun q => ?_⟩, hheld, fun n' => ?_, ?_⟩
  · by_cases hq : q = p
    · subst hq
      simpa [hsizes] using hslots
    · simpa [hsizes, hq] using hm.slots q
  · have hfilter := (hheld.filter (·.path.storePathIndex = q)).symm
    rw [hbyId]
    refine List.Perm.trans ?_ hfilter
    by_cases hq : q = p
    · subst hq
      simp only [hsizes, Function.update_self, List.filter_cons, hp, decide_true, if_true]
      exact (hnodes.map _).trans ((hm.agree q).cons _)
    · have hne : ¬ n.block.path.storePathIndex = q := by omega
      simp only [hsizes, ne_eq, hq, not_false_eq_true, Function.update_of_ne, List.filter_cons, hne, decide_false,
        Bool.false_eq_true, if_false]
      exact hm.agree q
  · unfold InPool
    rw [hsizes]
    by_cases hq : n'.block.path.storePathIndex = p
    · rw [hq, Function.update_self, hnodes.mem_iff, List.mem_cons]
    · have hne : n' ≠ n := by
        rintro rfl
        exact hq hp
      rw [Function.update_of_ne hq]
      simp [hne]
  · unfold afterAdd memBinlogWrite
    cases writeBinLog <;> exact ⟨rfl, rfl⟩

/-- **Unlinking a node**: both indexes lose it. -/
theorem removeNode_spec (hm : MemOk m) {slot : Slot} (hslot : slot ∈ (m.sizes n.block.path.storePathIndex).toList)
    (hn : n ∈ slot.chain) : Removed n m (removeNode slot n m) := by
  obtain ⟨p, hp⟩ : ∃ p, n.block.path.storePathIndex = p := ⟨_, rfl⟩
  rw [hp] at hslot
  have hchain : ∀ n' ∈ slot.chain.erase n, n'.block.size = slot.size ∧ n'.block.path.storePathIndex = p :=
    fun n' hn' => (hm.slots p).node slot hslot n' (List.mem_of_mem_erase hn')
  obtain ⟨hslots, others, hall, hnodes⟩ := setChain_spec (hm.slots p) hslot hchain
  have hperm : (nodes (m.sizes p)).Perm (n :: nodes (setChain slot (slot.chain.erase n) (m.sizes p))) :=
    hall.trans (((List.perm_cons_erase hn).append_right others).trans (hnodes.symm.cons n))
  have hin : InPool m n := by
    rw [InPool, hp, hperm.mem_iff]
    exact List.mem_cons_self
  obtain ⟨-, hchecker, hheld⟩ := freeBlockDelete_spec (b := n.block) hm.checker (hm.mem_held.2 ⟨n.status, hin⟩) ⟨rfl, rfl⟩
  have hsizes : (removeNode slot n m).sizes =
      Function.update m.sizes p (setChain slot (slot.chain.erase n) (m.sizes p)) := by
    simp only [removeNode, hp]
  refine ⟨⟨fun q => ?_, hchecker, fun q => ?_⟩, hheld, fun n' => ?_, rfl⟩
  · by_cases hq : q = p
    · subst hq
      simpa [hsizes] using hslots
    · simpa [hsizes, hq] using hm.slots q
  · have hfilter := hheld.filter (·.path.storePathIndex = q)
    by_cases hq : q = p
    · subst hq
      simp only [List.filter_cons, hp, decide_true, if_true] at hfilter
      rw [hsizes, Function.update_self]
      exact ((hperm.map _).symm.trans ((hm.agree q).trans hfilter)).cons_inv
    · have hne : ¬ n.block.path.storePathIndex = q := by omega
      simp only [List.filter_cons, hne, decide_false, Bool.false_eq_true, if_false] at hfilter
      rw [hsizes, Function.update_of_ne hq]
      exact (hm.agree q).trans hfilter
  · unfold InPool
    rw [hsizes]
    by_cases hq : n'.block.path.storePathIndex = p
    · rw [hq, Function.update_self, hperm.mem_iff, List.mem_cons]
    · have hne : n' ≠ n := by
        rintro rfl
        exact hq hp
      rw [Function.update_of_ne hq]
      simp [hne]

/-- Where `trunk_delete_space` and `trunk_restore_node` look for a node. -/
theorem inPool_iff (hm : MemOk m) : InPool m n ↔ ∃ slot ∈ (m.sizes n.block.path.storePathIndex).toList,
    find nodeCompareSize ⟨n.block.size, []⟩ (m.sizes n.block.path.storePathIndex) = some slot ∧ n ∈ slot.chain := by
  have hok := hm.slots n.block.path.storePathIndex
  rw [InPool, nodes, List.mem_flatMap]
  constructor
  · rintro ⟨slot, hslot, hn⟩
    have hkey : nodeCompareSize slot ⟨n.block.size, []⟩ = .eq := nodeCompareSize_eq.2 (hok.node slot hslot n hn).1.symm
    exact ⟨slot, hslot, (find_eq hok.valid.sorted).trans
      ((Ordered.find?_eq_some_iff hok.valid.sorted).2 ⟨hslot, hkey⟩), hn⟩
  · rintro ⟨slot, hslot, -, hn⟩
    exact ⟨slot, hslot, hn⟩

theorem deleteSpace_spec (hm : MemOk m) :
    (InPool m n → ∃ m', deleteSpace n m = (m', .ok n) ∧ Removed n m m') ∧
      (¬ InPool m n → deleteSpace n m = (m, .error .enoent)) := by
  constructor
  · intro hin
    obtain ⟨slot, hslot, hfind, hn⟩ := (inPool_iff hm).1 hin
    exact ⟨removeNode slot n m, by simp [deleteSpace, hfind, hn], removeNode_spec hm hslot hn⟩
  · intro hout
    unfold deleteSpace
    cases hfind : find nodeCompareSize ⟨n.block.size, []⟩ (m.sizes n.block.path.storePathIndex) with
    | none => rfl
    | some slot =>
      have hn : n ∉ slot.chain := by
        intro hn
        refine hout ((inPool_iff hm).2 ⟨slot, ?_, hfind, hn⟩)
        rw [find_eq (hm.slots _).valid.sorted] at hfind
        exact (Ordered.eq_of_find? hfind).1
      simp [hn]

theorem map_replace {α β : Type*} [BEq α] [LawfulBEq α] {f : α → β} {a b : α} (h : f a = f b) (l : List α) :
    (l.replace a b).map f = l.map f := by
  induction l with
  | nil => rfl
  | cons c l ih =>
    by_cases hc : c = a
    · simp [hc, h]
    · have hne : (a == c) = false := by simpa using Ne.symm hc
      simp [List.replace_cons, hne, ih]

theorem mem_replace {α : Type*} [BEq α] [LawfulBEq α] {a b c : α} {l : List α} (hc : c ∈ l) (hne : c ≠ a) :
    c ∈ l.replace a b := by
  induction l with
  | nil => exact hc
  | cons d l ih =>
    rw [List.replace_cons]
    rcases List.mem_cons.1 hc with rfl | hc
    · have hac : (a == c) = false := by simpa using hne.symm
      simp [hac]
    · cases a == d
      · exact List.mem_cons_of_mem _ (ih hc)
      · exact List.mem_cons_of_mem _ hc

/-- **Restoring a node** changes its status only. -/
theorem restoreNode_spec (hm : MemOk m) :
    (InPool m n → ∃ m', restoreNode n m = (m', .ok ()) ∧ MemOk m' ∧ m' = { m with sizes := m'.sizes } ∧
      ∀ n', InPool m n' → n' ≠ n → InPool m' n') ∧
      (¬ InPool m n → restoreNode n m = (m, .error .enoent)) := by
  constructor
  · intro hin
    obtain ⟨slot, hslot, hfind, hn⟩ := (inPool_iff hm).1 hin
    obtain ⟨p, hp⟩ : ∃ p, n.block.path.storePathIndex = p := ⟨_, rfl⟩
    rw [hp] at hslot hfind
    obtain ⟨chain, hchain⟩ : ∃ chain, chain = slot.chain.replace n { n with status := .free } := ⟨_, rfl⟩
    have hmap : chain.map (·.block) = slot.chain.map (·.block) := by
      rw [hchain]
      exact map_replace (a := n) (b := { n with status := .free }) rfl _
    have hold := (hm.slots p).node slot hslot
    have hnew : ∀ n' ∈ chain, n'.block.size = slot.size ∧ n'.block.path.storePathIndex = p := by
      intro n' hn'
      have hb : n'.block ∈ slot.chain.map (·.block) := hmap ▸ List.mem_map_of_mem hn'
      obtain ⟨n₀, hn₀, he⟩ := List.mem_map.1 hb
      exact he ▸ hold n₀ hn₀
    obtain ⟨hslots, others, hall, hnodes⟩ := setChain_spec (hm.slots p) hslot hnew
    refine ⟨{ m with sizes := Function.update m.sizes p (setChain slot chain (m.sizes p)) },
      by simp [restoreNode, hp, hfind, hn, hchain], ⟨fun q => ?_, hm.checker, fun q => ?_⟩, rfl, ?_⟩
    · by_cases hq : q = p
      · subst hq
        simpa using hslots
      · simpa [hq] using hm.slots q
    · by_cases hq : q = p
      · subst hq
        have hsame : ((nodes (setChain slot chain (m.sizes q))).map (·.block)).Perm
            ((nodes (m.sizes q)).map (·.block)) := by
          have h := (hnodes.map (·.block)).trans (List.Perm.of_eq (by rw [List.map_append, hmap, ← List.map_append]))
          exact h.trans (hall.map _).symm
        simpa using hsame.trans (hm.agree q)
      · simpa [hq] using hm.agree q
    · intro n' hn' hne
      unfold InPool at hn' ⊢
      by_cases hq : n'.block.path.storePathIndex = p
      · rw [hq] at hn' ⊢
        simp only [Function.update_self]
        rw [hall.mem_iff, List.mem_append] at hn'
        rw [hnodes.mem_iff, List.mem_append]
        refine hn'.imp_left fun hc => ?_
        rw [hchain]
        exact mem_replace hc hne
      · simpa [hq] using hn'
  · intro hout
    unfold restoreNode
    cases hfind : find nodeCompareSize ⟨n.block.size, []⟩ (m.sizes n.block.path.storePathIndex) with
    | none => simp [hfind]
    | some slot =>
      have hn : n ∉ slot.chain := by
        intro hn
        refine hout ((inPool_iff hm).2 ⟨slot, ?_, hfind, hn⟩)
        rw [find_eq (hm.slots _).valid.sorted] at hfind
        exact (Ordered.eq_of_find? hfind).1
      simp [hfind, hn]

end

/-! ## Allocation -/

section
variable {p : Nat} {t : TreeNode Slot} {size fuel : Nat}

/-- **Best fit**: the search ends at a free node of the smallest size that will do, and finds none only when every
node that is large enough is held. -/
theorem findFree_spec (ht : SlotsOk p t) (hfuel : (t.toList.filter fun s => size ≤ s.size).length < fuel) :
    (∀ slot n, findFree fuel size t = some (slot, n) → slot ∈ t.toList ∧ n ∈ slot.chain ∧ n.status = .free ∧
      size ≤ n.block.size ∧ ∀ n' ∈ nodes t, n'.status = .free → size ≤ n'.block.size → n.block.size ≤ n'.block.size) ∧
    (findFree fuel size t = none → ∀ n' ∈ nodes t, size ≤ n'.block.size → n'.status = .hold) := by
  induction fuel generalizing size with
  | zero => omega
  | succ fuel ih =>
    have hge := findGe_eq (x := (⟨size, []⟩ : Slot)) ht.valid.sorted
    have hkey : ∀ s : Slot, nodeCompareSize s ⟨size, []⟩ ≠ .lt ↔ size ≤ s.size := by
      intro s
      rw [ne_eq, nodeCompareSize_lt]
      simp
    cases hf : findGe nodeCompareSize ⟨size, []⟩ t with
    | none =>
      have hnone : ∀ n' ∈ nodes t, ¬ size ≤ n'.block.size := by
        intro n' hn' hsize
        obtain ⟨s, hs, hn'⟩ := List.mem_flatMap.1 hn'
        rw [hge, Ordered.findGe?, List.find?_eq_none] at hf
        refine hf s hs ?_
        simpa [hkey] using (ht.node s hs n' hn').1 ▸ hsize
      simp only [findFree, hf]
      exact ⟨by simp, fun _ n' hn' hsize => absurd hsize (hnone n' hn')⟩
    | some slot =>
      have hf' := hf
      rw [hge, Ordered.findGe?_eq_some_iff ht.valid.sorted] at hf
      obtain ⟨hslot, hsize, hleast⟩ := hf
      rw [hkey] at hsize
      have hmin : ∀ n' ∈ nodes t, size ≤ n'.block.size → slot.size ≤ n'.block.size := by
        intro n' hn' hn'size
        obtain ⟨s, hs, hn'⟩ := List.mem_flatMap.1 hn'
        rw [(ht.node s hs n' hn').1] at hn'size ⊢
        rcases hleast s hs ((hkey s).2 hn'size) with rfl | hlt
        · exact le_rfl
        · exact (nodeCompareSize_lt.1 hlt).le
      have hhere : ∀ n' ∈ nodes t, n'.block.size = slot.size → n' ∈ slot.chain := by
        intro n' hn' hn'size
        obtain ⟨s, hs, hn'⟩ := List.mem_flatMap.1 hn'
        have hsame : nodeCompareSize s slot = .eq := nodeCompareSize_eq.2 ((ht.node s hs n' hn').1.symm.trans hn'size)
        have h₁ := (Ordered.find?_eq_some_iff ht.valid.sorted).2 ⟨hs, hsame⟩
        have hself : nodeCompareSize slot slot = .eq := nodeCompareSize_eq.2 rfl
        have h₂ := (Ordered.find?_eq_some_iff ht.valid.sorted).2 ⟨hslot, hself⟩
        obtain rfl : s = slot := Option.some.inj (h₁.symm.trans h₂)
        exact hn'
      cases hc : slot.chain.find? fun n => n.status ≠ .hold with
      | some n =>
        have hn := List.mem_of_find?_eq_some hc
        have hstatus : n.status ≠ .hold := by simpa using List.find?_some hc
        have hnsize := (ht.node slot hslot n hn).1
        simp only [findFree, hf', hc]
        refine ⟨?_, by simp⟩
        intro slot' n' h
        obtain ⟨rfl, rfl⟩ : slot = slot' ∧ n = n' := by simpa using h
        refine ⟨hslot, hn, ?_, hnsize ▸ hsize, fun n' hn' _ hn'size => hnsize ▸ hmin n' hn' hn'size⟩
        cases h : n.status with
        | free => rfl
        | hold => exact absurd h hstatus
      | none =>
        -- all nodes of this slot are held: the rest is about the larger slots
        have hheld : ∀ n' ∈ slot.chain, n'.status = .hold := by simpa using hc
        have hlarger : ∀ n' ∈ nodes t, size ≤ n'.block.size → n'.status = .hold ∨ slot.size + 1 ≤ n'.block.size := by
          intro n' hn' hn'size
          by_cases heq : n'.block.size = slot.size
          · exact .inl (hheld n' (hhere n' hn' heq))
          · have := hmin n' hn' hn'size
            exact .inr (by omega)
        have hshrink : (t.toList.filter fun s => slot.size + 1 ≤ s.size).length < fuel := by
          have hsub : (t.toList.filter fun s => slot.size + 1 ≤ s.size).Sublist
              (t.toList.filter fun s => size ≤ s.size) :=
            List.monotone_filter_right _ fun s hs => by
              simp only [decide_eq_true_eq] at hs ⊢
              omega
          have hne : (t.toList.filter fun s => slot.size + 1 ≤ s.size) ≠ t.toList.filter fun s => size ≤ s.size := by
            intro heq
            have hmem : slot ∈ t.toList.filter fun s => size ≤ s.size := by simp [hslot, hsize]
            rw [← heq] at hmem
            simp at hmem
          have := hsub.length_le
          have : (t.toList.filter fun s => slot.size + 1 ≤ s.size).length ≠
              (t.toList.filter fun s => size ≤ s.size).length := fun hlen => hne (hsub.eq_of_length hlen)
          omega
        obtain ⟨ihsome, ihnone⟩ := ih hshrink
        simp only [findFree, hf', hc]
        refine ⟨fun s n hs => ?_, fun hs n' hn' hn'size => ?_⟩
        · obtain ⟨h₁, h₂, h₃, h₄, h₅⟩ := ihsome s n hs
          refine ⟨h₁, h₂, h₃, by omega, fun n' hn' hfree hn'size => ?_⟩
          rcases hlarger n' hn' hn'size with h | h
          · rw [hfree] at h
            cases h
          · exact h₅ n' hn' hfree h
        · rcases hlarger n' hn' hn'size with h | h
          · exact h
          · exact ihnone hs n' hn' h

end

section
variable {path : Nat} {sub : Nat → Nat × Nat}

theorem fileName_injective : Function.Injective (fileName path sub) := by
  intro i j h
  exact congrArg FileIdentifier.id h

/-- The search for a new number ends: there are only so many files. -/
theorem nextFileId_fresh (files : List FileIdentifier) (id : Nat) :
    fileName path sub (nextFileId path sub files files.length id) ∉ files := by
  -- what `fuel` steps have passed over are that many different files
  have hstep : ∀ fuel id, fileName path sub (nextFileId path sub files fuel id) ∈ files →
      ∀ i ≤ fuel, fileName path sub (id + 1 + i) ∈ files := by
    intro fuel
    induction fuel with
    | zero =>
      intro id h i hi
      obtain rfl : i = 0 := by omega
      exact h
    | succ fuel ih =>
      intro id h i hi
      by_cases hmem : fileName path sub (id + 1) ∈ files
      · rw [nextFileId, if_pos hmem] at h
        cases i with
        | zero => exact hmem
        | succ i =>
          have := ih (id + 1) h i (by omega)
          rwa [show id + 1 + (i + 1) = id + 1 + 1 + i by omega]
      · rw [nextFileId, if_neg hmem] at h
        exact absurd h hmem
  intro h
  have hsub : ((List.range (files.length + 1)).map fun i => fileName path sub (id + 1 + i)) ⊆ files := by
    intro f hf
    obtain ⟨i, hi, rfl⟩ := List.mem_map.1 hf
    exact hstep files.length id h i (by simpa [Nat.lt_succ_iff] using hi)
  have hnodup : ((List.range (files.length + 1)).map fun i => fileName path sub (id + 1 + i)).Nodup := by
    refine List.Nodup.map ?_ List.nodup_range
    intro i j hij
    have := fileName_injective hij
    omega
  have := (hnodup.subperm hsub).length_le
  simp at this

end

/-- A new trunk file has a name that no other one has. -/
theorem createTrunkFile_cases (c : Config) (path : Nat) (sub : Nat → Nat × Nat) (io : Except Errno Unit) (m : Mem) :
    (∃ b id, b.file ∉ m.files ∧ b.offset = 0 ∧ b.size = c.trunkFileSize ∧ b.path.storePathIndex = path ∧
      createTrunkFile c path sub io m = (memBinlogWrite .addSpace b
        { m with currentTrunkFileId := id, files := b.file :: m.files }, .ok ⟨.free, b⟩)) ∨
    (∃ e id, createTrunkFile c path sub io m = ({ m with currentTrunkFileId := id }, .error e)) := by
  cases io with
  | error e => exact .inr ⟨e, _, rfl⟩
  | ok u =>
    refine .inl ⟨_, _, ?_, rfl, rfl, rfl, rfl⟩
    exact nextFileId_fresh m.files m.currentTrunkFileId

/-- What the locked part of `trunk_alloc_space` can do: take a free node, one that is large enough and no larger
than any other such node of the path; or, when all of those are held, turn to a new trunk file. -/
theorem allocTake_cases {c : Config} {m : Mem} (hm : MemOk m) (path size : Nat) (sub : Nat → Nat × Nat)
    (io : Except Errno Unit) :
    (∃ n m', allocTake c path size sub io m = (m', .ok n) ∧ Removed n m m' ∧ n.status = .free ∧
      n.block.path.storePathIndex = path ∧ max size c.slotMinSize ≤ n.block.size ∧
      ∀ n' ∈ nodes (m.sizes path), n'.status = .free → max size c.slotMinSize ≤ n'.block.size →
        n.block.size ≤ n'.block.size) ∨
    (allocTake c path size sub io m = createTrunkFile c path sub io m ∧
      ∀ n' ∈ nodes (m.sizes path), max size c.slotMinSize ≤ n'.block.size → n'.status = .hold) := by
  have hwanted : (if c.slotMinSize < size then size else c.slotMinSize) = max size c.slotMinSize := by
    split_ifs <;> omega
  have hfuel : ((m.sizes path).toList.filter fun s => max size c.slotMinSize ≤ s.size).length <
      count (m.sizes path) + 1 := by
    rw [count_eq]
    exact Nat.lt_succ_of_le (List.length_filter_le _ _)
  obtain ⟨hsome, hnone⟩ := findFree_spec (hm.slots path) hfuel
  simp only [allocTake, hwanted]
  cases hf : findFree (count (m.sizes path) + 1) (max size c.slotMinSize) (m.sizes path) with
  | some r =>
    obtain ⟨slot, n⟩ := r
    obtain ⟨hslot, hn, hfree, hsize, hbest⟩ := hsome slot n hf
    have hp := ((hm.slots path).node slot hslot n hn).2
    exact .inl ⟨n, _, rfl, removeNode_spec hm (hp ▸ hslot) hn, hfree, hp, hsize, hbest⟩
  | none => exact .inr ⟨rfl, hnone hf⟩

end HahaDog.Trunk
