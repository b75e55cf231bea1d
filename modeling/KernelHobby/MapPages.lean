import KernelHobby.PtAlloc

namespace KernelHobby
set_option autoImplicit true

/-- Where an entry of an upper level leads. -/
def child (pte : Nat) : Option Nat := if pte &&& PTE_V ≠ 0 then some (pte2pa pte) else none

/-- The nodes of the page table at `r`, as the memory has them. -/
def nodeAt (m : Mem) (r : Nat) : Node → Option Nat
  | .root => some r
  | .mid i => child ((m r).word i)
  | .low i j => (child ((m r).word i)).bind fun p => child ((m p).word j)

/-- The lowest entry of a virtual page, 0 where there is no node for it. -/
def leafAt (m : Mem) (r v : Nat) : Nat :=
  match nodeAt m r (.low (ix2 v) (ix1 v)) with
  | none => 0
  | some p => (m p).word (ix0 v)

namespace Phys

/-- What `walk` without allocation finds for a virtual page, 0 when it finds no entry. -/
def lookup (s : Phys) (r v : Nat) : Nat :=
  match (s.walk r (v * PGSIZE) false).1 with
  | none => 0
  | some (p, i) => (s.mem p).word i

end Phys

/-- A page table whose nodes are distinct pages, and a free list that has none of them. -/
structure Table (s : Phys) (r : Nat) (fl : List Nat) : Prop where
  page : ∀ x n, nodeAt s.mem r x = some n → n < 2 ^ 52
  distinct : Distinct (nodeAt s.mem r)
  chain : Chain s.mem s.freelist fl
  apart : ∀ x n, nodeAt s.mem r x = some n → n ∉ fl

theorem child_zero : child 0 = none := rfl

theorem child_link (n : Nat) : child (pa2pte n ||| PTE_V) = some n := by
  rw [pa2pte_or n (by decide), child, if_pos (link_some_and n), pte2pa_mkPte n (by decide)]

theorem link_word (hn : n < 2 ^ 52) : pa2pte n ||| PTE_V < 2 ^ 64 := by
  rw [pa2pte_or n (by decide), mkPte, PTE_V]
  omega

section
variable {m m' : Mem} {r : Nat}

theorem nodeAt_low (hp : nodeAt m r (.mid i) = some p) (j : Fin 512) :
    nodeAt m r (.low i j) = child ((m p).word j) := by
  have hc : child ((m r).word i) = some p := hp
  rw [nodeAt, hc, Option.bind_some]

theorem nodeAt_low_none (hp : nodeAt m r (.mid i) = none) (j : Fin 512) :
    nodeAt m r (.low i j) = none := by
  have hc : child ((m r).word i) = none := hp
  rw [nodeAt, hc, Option.bind_none]

/-- A page that was no node becomes a middle node. -/
theorem nodeAt_addMid (hd : Distinct (nodeAt m r)) (hi : nodeAt m r (.mid i) = none)
    (hn : ∀ x, nodeAt m r x ≠ some n) (hlt : n < 2 ^ 52) :
    nodeAt ((m.setPage n Page.zero).setWord r i (pa2pte n ||| PTE_V)) r =
      Function.update (nodeAt m r) (.mid i) (some n) := by
  have hrn : r ≠ n := fun he => hn .root (he ▸ rfl)
  have hmid (j : Fin 512) :
      nodeAt ((m.setPage n Page.zero).setWord r i (pa2pte n ||| PTE_V)) r (.mid j) =
        Function.update (nodeAt m r) (.mid i) (some n) (.mid j) := by
    by_cases hj : j = i
    · subst hj
      rw [Function.update_self, nodeAt, Mem.word_setWord_self _ _ _ (link_word hlt), child_link]
    · have hne : Node.mid j ≠ .mid i := fun he => hj (Node.mid.inj he)
      rw [Function.update_of_ne hne, nodeAt, nodeAt,
        Mem.word_setWord_of_ne _ (.inr fun he => hj (Fin.ext he)), m.setPage_of_ne _ hrn]
  funext x
  cases x with
  | root =>
    rw [Function.update_of_ne Node.noConfusion]
    rfl
  | mid j => exact hmid j
  | low j k =>
    rw [Function.update_of_ne Node.noConfusion]
    by_cases hj : j = i
    · subst hj
      have hnew := hmid j
      rw [Function.update_self] at hnew
      rw [nodeAt_low hnew, nodeAt_low_none hi, Mem.word_setWord_of_ne _ (.inl hrn.symm),
        m.setPage_self, Page.word_zero, child_zero]
    · have hne : Node.mid j ≠ .mid i := fun he => hj (Node.mid.inj he)
      have hold := hmid j
      rw [Function.update_of_ne hne] at hold
      cases hp : nodeAt m r (.mid j) with
      | none =>
        rw [hp] at hold
        rw [nodeAt_low_none hp, nodeAt_low_none hold]
      | some p =>
        have hpr : p ≠ r := by
          rintro rfl
          cases hd _ .root p hp rfl
        have hpn : p ≠ n := fun he => hn _ (he ▸ hp)
        rw [hp] at hold
        rw [nodeAt_low hp, nodeAt_low hold, Mem.word_setWord_of_ne _ (.inl hpr),
          m.setPage_of_ne _ hpn]

/-- A page that was no node becomes a lowest node. -/
theorem nodeAt_addLow {j : Fin 512} (hd : Distinct (nodeAt m r)) (hp : nodeAt m r (.mid i) = some p)
    (hn : ∀ x, nodeAt m r x ≠ some n) (hlt : n < 2 ^ 52) :
    nodeAt ((m.setPage n Page.zero).setWord p j (pa2pte n ||| PTE_V)) r =
      Function.update (nodeAt m r) (.low i j) (some n) := by
  have hpn : p ≠ n := fun he => hn _ (he ▸ hp)
  have hrn : r ≠ n := fun he => hn .root (he ▸ rfl)
  have hrp : r ≠ p := by
    rintro rfl
    cases hd .root _ r rfl hp
  have hmid (k : Fin 512) :
      nodeAt ((m.setPage n Page.zero).setWord p j (pa2pte n ||| PTE_V)) r (.mid k) =
        nodeAt m r (.mid k) := by
    rw [nodeAt, nodeAt, Mem.word_setWord_of_ne _ (.inl hrp), m.setPage_of_ne _ hrn]
  funext x
  cases x with
  | root =>
    rw [Function.update_of_ne Node.noConfusion]
    rfl
  | mid k =>
    rw [Function.update_of_ne Node.noConfusion]
    exact hmid k
  | low k l =>
    cases hq : nodeAt m r (.mid k) with
    | none =>
      have hne : Node.low k l ≠ .low i j := by
        intro he
        obtain ⟨rfl, _⟩ := Node.low.inj he
        rw [hp] at hq
        cases hq
      rw [Function.update_of_ne hne, nodeAt_low_none hq, nodeAt_low_none ((hmid k).trans hq)]
    | some q =>
      rw [nodeAt_low ((hmid k).trans hq)]
      by_cases hqp : q = p
      · subst hqp
        obtain rfl := Node.mid.inj (hd _ _ q hq hp)
        by_cases hl : l = j
        · subst hl
          rw [Mem.word_setWord_self _ _ _ (link_word hlt), child_link, Function.update_self]
        · have hne : Node.low k l ≠ .low k j := fun he => hl (Node.low.inj he).2
          rw [Mem.word_setWord_of_ne _ (.inr fun he => hl (Fin.ext he)), m.setPage_of_ne _ hpn,
            Function.update_of_ne hne, nodeAt_low hq]
      · have hqn : q ≠ n := fun he => hn _ (he ▸ hq)
        have hne : Node.low k l ≠ .low i j := by
          intro he
          obtain ⟨rfl, _⟩ := Node.low.inj he
          rw [hp] at hq
          exact hqp (Option.some.inj hq).symm
        rw [Mem.word_setWord_of_ne _ (.inl hqp), m.setPage_of_ne _ hqn, Function.update_of_ne hne,
          nodeAt_low hq]

/-- An entry of a lowest node is written. -/
theorem nodeAt_setLeaf (hd : Distinct (nodeAt m r)) (hp : nodeAt m r (.low i j) = some p)
    (k w : Nat) : nodeAt (m.setWord p k w) r = nodeAt m r := by
  have hrp : r ≠ p := by
    rintro rfl
    cases hd .root _ r rfl hp
  have hmid (l : Fin 512) : nodeAt (m.setWord p k w) r (.mid l) = nodeAt m r (.mid l) := by
    rw [nodeAt, nodeAt, m.setWord_of_ne hrp]
  funext x
  cases x with
  | root => rfl
  | mid l => exact hmid l
  | low l o =>
    cases hq : nodeAt m r (.mid l) with
    | none => rw [nodeAt_low_none hq, nodeAt_low_none ((hmid l).trans hq)]
    | some q =>
      have hqp : q ≠ p := by
        rintro rfl
        cases hd _ _ q hq hp
      rw [nodeAt_low hq, nodeAt_low ((hmid l).trans hq), m.setWord_of_ne hqp]

theorem leafAt_some (hp : nodeAt m r (.low (ix2 v) (ix1 v)) = some p) :
    leafAt m r v = (m p).word (ix0 v) := by
  rw [leafAt, hp]

theorem leafAt_none (hp : nodeAt m r (.low (ix2 v) (ix1 v)) = none) : leafAt m r v = 0 := by
  rw [leafAt, hp]

theorem child_of_link (o : Option Nat) : child (link o) = o := by
  cases o with
  | none => rfl
  | some n =>
    have hb : link (some n) &&& PTE_V ≠ 0 := link_some_and n
    rw [child, if_pos hb]
    exact congrArg some (pte2pa_mkPte n (by decide))

/-- What the memory has of a page table that it holds. -/
theorem Holds.nodeAt (h : Holds m T lf) (hr : T .root = some r) (x : Node) : nodeAt m r x = T x := by
  have hmid (i : Fin 512) : KernelHobby.nodeAt m r (.mid i) = T (.mid i) := by
    rw [KernelHobby.nodeAt, h.root r hr i, child_of_link]
  cases x with
  | root => exact hr.symm
  | mid i => exact hmid i
  | low i j =>
    cases hp : T (.mid i) with
    | none =>
      rw [nodeAt_low_none ((hmid i).trans hp), h.up i j hp]
    | some p =>
      rw [nodeAt_low ((hmid i).trans hp), h.mid i p hp j, child_of_link]

theorem Holds.leafAt (h : Holds m T lf) (hr : T .root = some r) (hv : v < 2 ^ 27) :
    leafAt m r v = lf v := by
  have hn := h.nodeAt hr (.low (ix2 v) (ix1 v))
  cases hl : T (.low (ix2 v) (ix1 v)) with
  | none =>
    rw [leafAt_none (hn.trans hl), h.absent v hv hl]
  | some p =>
    rw [leafAt_some (hn.trans hl), h.low v p hv hl]

theorem leafAt_addMid (hd : Distinct (nodeAt m r)) (hi : nodeAt m r (.mid i) = none)
    (hn : ∀ x, nodeAt m r x ≠ some n) (hlt : n < 2 ^ 52) (v : Nat) :
    leafAt ((m.setPage n Page.zero).setWord r i (pa2pte n ||| PTE_V)) r v = leafAt m r v := by
  have hlow := congrFun (nodeAt_addMid hd hi hn hlt) (.low (ix2 v) (ix1 v))
  rw [Function.update_of_ne Node.noConfusion] at hlow
  cases hp : nodeAt m r (.low (ix2 v) (ix1 v)) with
  | none => rw [leafAt_none hp, leafAt_none (hlow.trans hp)]
  | some p =>
    have hpr : p ≠ r := by
      rintro rfl
      cases hd _ .root p hp rfl
    have hpn : p ≠ n := fun he => hn _ (he ▸ hp)
    rw [leafAt_some hp, leafAt_some (hlow.trans hp), Mem.word_setWord_of_ne _ (.inl hpr),
      m.setPage_of_ne _ hpn]

theorem leafAt_addLow {j : Fin 512} (hd : Distinct (nodeAt m r))
    (hp : nodeAt m r (.mid i) = some p) (hj : nodeAt m r (.low i j) = none)
    (hn : ∀ x, nodeAt m r x ≠ some n) (hlt : n < 2 ^ 52) (v : Nat) :
    leafAt ((m.setPage n Page.zero).setWord p j (pa2pte n ||| PTE_V)) r v = leafAt m r v := by
  have hlow := congrFun (nodeAt_addLow (j := j) hd hp hn hlt) (.low (ix2 v) (ix1 v))
  have hpn : p ≠ n := fun he => hn _ (he ▸ hp)
  by_cases hv : Node.low (ix2 v) (ix1 v) = .low i j
  · rw [← hv] at hj
    rw [hv, Function.update_self, ← hv] at hlow
    rw [leafAt_none hj, leafAt_some hlow, Mem.word_setWord_of_ne _ (.inl hpn.symm), m.setPage_self,
      Page.word_zero]
  · rw [Function.update_of_ne hv] at hlow
    cases hq : nodeAt m r (.low (ix2 v) (ix1 v)) with
    | none => rw [leafAt_none hq, leafAt_none (hlow.trans hq)]
    | some q =>
      have hqp : q ≠ p := by
        rintro rfl
        cases hd _ _ q hq hp
      have hqn : q ≠ n := fun he => hn _ (he ▸ hq)
      rw [leafAt_some hq, leafAt_some (hlow.trans hq), Mem.word_setWord_of_ne _ (.inl hqp),
        m.setPage_of_ne _ hqn]

theorem leafAt_setLeaf (hd : Distinct (nodeAt m r)) (hv : v < 2 ^ 27)
    (hp : nodeAt m r (.low (ix2 v) (ix1 v)) = some p) (hw : w < 2 ^ 64) (hu : u < 2 ^ 27) :
    leafAt (m.setWord p (ix0 v) w) r u = if u = v then w else leafAt m r u := by
  have hnode := nodeAt_setLeaf hd hp (ix0 v) w
  by_cases huv : u = v
  · subst huv
    rw [if_pos rfl, leafAt_some ((congrFun hnode _).trans hp), m.word_setWord_self _ _ hw]
  · rw [if_neg huv]
    cases hq : nodeAt m r (.low (ix2 u) (ix1 u)) with
    | none => rw [leafAt_none hq, leafAt_none ((congrFun hnode _).trans hq)]
    | some q =>
      rw [leafAt_some hq, leafAt_some ((congrFun hnode _).trans hq)]
      apply m.word_setWord_of_ne
      by_cases hqp : q = p
      · subst hqp
        obtain ⟨h₂, h₁⟩ := Node.low.inj (hd _ _ q hq hp)
        exact .inr fun h₀ => huv (ix_inj hu hv h₂ h₁ (Fin.ext h₀))
      · exact .inl hqp

end

theorem Chain.after (h : Chain m n ks) (hk : k ∈ ks) :
    ∃ js, js.length < ks.length ∧ Chain m ((m k).word 0 / PGSIZE) js := by
  induction ks generalizing n with
  | nil => cases hk
  | cons j ks ih =>
    obtain ⟨rfl, _, _, hrest⟩ := h
    rcases List.mem_cons.1 hk with rfl | hk
    · exact ⟨ks, Nat.lt_succ_self _, hrest⟩
    · obtain ⟨js, hlt, hjs⟩ := ih hrest hk
      exact ⟨js, Nat.lt_succ_of_lt hlt, hjs⟩

/-- A list that ends has no page twice. -/
theorem Chain.head_not_mem (h : Chain m n (k :: ks)) : k ∉ ks := by
  intro hk
  obtain ⟨rfl, _, _, hrest⟩ := h
  obtain ⟨js, hlt, hjs⟩ := hrest.after hk
  rw [hrest.unique hjs] at hlt
  exact Nat.lt_irrefl _ hlt

theorem Chain.kalloc {s : Phys} (h : Chain s.mem s.freelist fl) (hn : s.kalloc.1 ≠ 0) :
    ∃ fl', fl = s.kalloc.1 :: fl' ∧ s.kalloc.1 < PHYSTOP ∧
      Chain s.mem s.kalloc.2.freelist fl' := by
  have hne : s.freelist ≠ 0 := by
    intro hz
    rw [Phys.kalloc, if_neg (not_not.2 hz)] at hn
    exact hn rfl
  cases fl with
  | nil => exact absurd h hne
  | cons k ks =>
    obtain ⟨hk, _, hlt, hrest⟩ := h
    have hone : s.kalloc.1 = k := by
      rw [Phys.kalloc, if_pos hne, hk]
    rw [hone]
    refine ⟨ks, rfl, hlt, ?_⟩
    rw [Phys.kalloc, if_pos hne, hk]
    exact hrest

/-- The table gets more nodes, all from the free list, and its entries become those of `f`. -/
structure Extends (r : Nat) (s : Phys) (fl : List Nat) (s' : Phys) (fl' : List Nat)
    (f : Nat → Nat) : Prop where
  table : Table s' r fl'
  leaf : ∀ v, v < 2 ^ 27 → leafAt s'.mem r v = f v
  kept : ∀ x n, nodeAt s.mem r x = some n → nodeAt s'.mem r x = some n
  linked : ∃ us, fl = us ++ fl' ∧ ∀ n ∈ us, ∃ x, nodeAt s'.mem r x = some n

namespace Extends

theorem refl (h : Table s r fl) : Extends r s fl s fl (leafAt s.mem r) :=
  ⟨h, fun _ _ => rfl, fun _ _ hx => hx, [], rfl, fun _ hn => by cases hn⟩

theorem trans (h : Extends r s fl s' fl' f) (h' : Extends r s' fl' s'' fl'' g) :
    Extends r s fl s'' fl'' g where
  table := h'.table
  leaf := h'.leaf
  kept x n hx := h'.kept x n (h.kept x n hx)
  linked := by
    obtain ⟨us, hfl, hus⟩ := h.linked
    obtain ⟨us', hfl', hus'⟩ := h'.linked
    refine ⟨us ++ us', by rw [hfl, hfl', List.append_assoc], fun n hn => ?_⟩
    rcases List.mem_append.1 hn with hn | hn
    · obtain ⟨x, hx⟩ := hus n hn
      exact ⟨x, h'.kept x n hx⟩
    · exact hus' n hn

theorem congr (h : Extends r s fl s' fl' f) (hfg : ∀ v, v < 2 ^ 27 → f v = g v) :
    Extends r s fl s' fl' g :=
  ⟨h.table, fun v hv => (h.leaf v hv).trans (hfg v hv), h.kept, h.linked⟩

end Extends

namespace Table
variable {s : Phys} {r : Nat} {fl : List Nat}

theorem fresh (h : Table s r fl) (hn : s.kalloc.1 ≠ 0) (x : Node) :
    nodeAt s.mem r x ≠ some s.kalloc.1 := by
  obtain ⟨fl', hfl, _, _⟩ := h.chain.kalloc hn
  intro hx
  apply h.apart x _ hx
  rw [hfl]
  exact List.mem_cons_self

theorem fresh_lt (h : Table s r fl) (hn : s.kalloc.1 ≠ 0) : s.kalloc.1 < 2 ^ 52 := by
  obtain ⟨_, _, hlt, _⟩ := h.chain.kalloc hn
  rw [PHYSTOP] at hlt
  omega

/-- A page from the free list becomes node `x`. -/
theorem grow (h : Table s r fl) (hn : s.kalloc.1 ≠ 0) (hx : nodeAt s.mem r x = none) {m : Mem}
    (hnode : nodeAt m r = Function.update (nodeAt s.mem r) x (some s.kalloc.1))
    (hleaf : ∀ v, leafAt m r v = leafAt s.mem r v)
    (hframe : ∀ k, k ≠ s.kalloc.1 → (∀ y, nodeAt s.mem r y ≠ some k) → m k = s.mem k) :
    ∃ fl', Extends r s fl (s.kalloc.2.setMem m) fl' (leafAt s.mem r) := by
  obtain ⟨fl', hfl, _, hchain⟩ := h.chain.kalloc hn
  have hnew : s.kalloc.1 ∉ fl' := by
    have hc := h.chain
    rw [hfl] at hc
    exact hc.head_not_mem
  have hsub (k : Nat) (hk : k ∈ fl') : k ∈ fl := by
    rw [hfl]
    exact List.mem_cons_of_mem _ hk
  refine ⟨fl', ⟨?_, ?_, ?_, ?_⟩, fun v _ => hleaf v, ?_, [s.kalloc.1], hfl, ?_⟩
  · intro y n hy
    change nodeAt m r y = some n at hy
    rw [hnode] at hy
    by_cases hyx : y = x
    · subst hyx
      rw [Function.update_self] at hy
      cases hy
      exact h.fresh_lt hn
    · rw [Function.update_of_ne hyx] at hy
      exact h.page y n hy
  · change Distinct (nodeAt m r)
    rw [hnode]
    exact h.distinct.update (h.fresh hn) x
  · apply hchain.congr
    intro k hk
    refine hframe k (fun he => hnew (he ▸ hk)) fun y hy => ?_
    exact h.apart y k hy (hsub k hk)
  · intro y n hy
    change nodeAt m r y = some n at hy
    rw [hnode] at hy
    by_cases hyx : y = x
    · subst hyx
      rw [Function.update_self] at hy
      cases hy
      exact hnew
    · rw [Function.update_of_ne hyx] at hy
      exact fun hk => h.apart y n hy (hsub n hk)
  · intro y n hy
    have hyx : y ≠ x := by
      rintro rfl
      rw [hx] at hy
      cases hy
    change nodeAt m r y = some n
    rw [hnode, Function.update_of_ne hyx]
    exact hy
  · intro n hn
    obtain rfl := List.mem_singleton.1 hn
    refine ⟨x, ?_⟩
    change nodeAt m r x = _
    rw [hnode, Function.update_self]

/-- A `kalloc` without a page changes nothing. -/
theorem noPage (h : Table s r fl) (hz : s.kalloc.1 = 0) :
    Extends r s fl s.kalloc.2 fl (leafAt s.mem r) := by
  rw [Phys.kalloc_zero hz]
  exact ⟨⟨h.page, h.distinct, h.chain, h.apart⟩, fun _ _ => rfl, fun _ _ hx => hx, [], rfl,
    fun _ hn => by cases hn⟩

end Table

namespace Phys
variable {s : Phys}

theorem walkLevels_child (hc : child ((s.mem pt).word (px (level + 1) va)) = some n) :
    walkLevels alloc va (level + 1) s pt = walkLevels alloc va level s n := by
  rw [child] at hc
  split at hc
  · rename_i hv
    cases hc
    rw [walkLevels]
    exact if_pos hv
  · cases hc

theorem walkLevels_stop (hc : child ((s.mem pt).word (px (level + 1) va)) = none) :
    walkLevels false va (level + 1) s pt = (none, s) := by
  rw [child] at hc
  split at hc
  · cases hc
  · rename_i hv
    rw [walkLevels]
    exact if_neg hv

theorem walkLevels_new (hc : child ((s.mem pt).word (px (level + 1) va)) = none) :
    walkLevels true va (level + 1) s pt =
      if s.kalloc.1 = 0 then (none, s.kalloc.2)
      else walkLevels true va level (s.kalloc.2.setMem ((s.mem.setPage s.kalloc.1 Page.zero).setWord
        pt (px (level + 1) va) (pa2pte s.kalloc.1 ||| PTE_V))) s.kalloc.1 := by
  rw [child] at hc
  split at hc
  · cases hc
  · rename_i hv
    rw [walkLevels]
    simp only [if_neg hv, Bool.not_true, Bool.false_eq_true, if_false, kalloc_mem]

/-- `walk` finds the lowest node of the tree. -/
theorem walk_nodeAt (s : Phys) (r va : Nat) : s.walk r va false =
    ((nodeAt s.mem r (.low (ix2 (vpn va)) (ix1 (vpn va)))).map fun p => (p, (ix0 (vpn va) : Nat)),
      s) := by
  rw [walk]
  cases hp : nodeAt s.mem r (.mid (ix2 (vpn va))) with
  | none =>
    have hc := hp
    rw [nodeAt, ← px_two] at hc
    rw [walkLevels_stop hc, nodeAt_low_none hp]
    rfl
  | some p =>
    have hc := hp
    rw [nodeAt, ← px_two] at hc
    rw [walkLevels_child hc]
    cases hl : nodeAt s.mem r (.low (ix2 (vpn va)) (ix1 (vpn va))) with
    | none =>
      rw [nodeAt_low hp, ← px_one] at hl
      rw [walkLevels_stop hl]
      rfl
    | some n =>
      rw [nodeAt_low hp, ← px_one] at hl
      rw [walkLevels_child hl, walkLevels, px_zero]
      rfl

theorem lookup_eq (s : Phys) (r : Nat) (hv : v < 2 ^ 27) : s.lookup r v = leafAt s.mem r v := by
  have hvpn : vpn (v * PGSIZE) = v := by
    rw [vpn, Nat.mul_div_cancel _ (by decide), Nat.mod_eq_of_lt hv]
  rw [lookup, walk_nodeAt, leafAt, hvpn]
  cases nodeAt s.mem r (.low (ix2 v) (ix1 v)) with
  | none => rfl
  | some p => rfl

end Phys

namespace Table
variable {s : Phys} {r : Nat} {fl : List Nat}

theorem walk_mid (h : Table s r fl) (hp : nodeAt s.mem r (.mid (ix2 (vpn va))) = some p) :
    ∃ fl', Extends r s fl (Phys.walkLevels true va 1 s p).2 fl' (leafAt s.mem r) ∧
      ((Phys.walkLevels true va 1 s p).1 = none ∨
        ∃ n, (Phys.walkLevels true va 1 s p).1 = some n ∧
          nodeAt (Phys.walkLevels true va 1 s p).2.mem r (.low (ix2 (vpn va)) (ix1 (vpn va))) =
            some n) := by
  cases hl : nodeAt s.mem r (.low (ix2 (vpn va)) (ix1 (vpn va))) with
  | some n =>
    have hc := hl
    rw [nodeAt_low hp, ← px_one] at hc
    rw [Phys.walkLevels_child hc]
    exact ⟨fl, .refl h, .inr ⟨n, rfl, hl⟩⟩
  | none =>
    have hc := hl
    rw [nodeAt_low hp, ← px_one] at hc
    rw [Phys.walkLevels_new hc]
    by_cases hz : s.kalloc.1 = 0
    · rw [if_pos hz]
      exact ⟨fl, h.noPage hz, .inl rfl⟩
    · rw [if_neg hz, Phys.walkLevels, px_one]
      have hn := h.fresh hz
      have hlt := h.fresh_lt hz
      have hnode := nodeAt_addLow (j := ix1 (vpn va)) h.distinct hp hn hlt
      obtain ⟨fl', he⟩ := h.grow hz hl hnode (leafAt_addLow h.distinct hp hl hn hlt) (by
        intro k hk hy
        rw [Mem.setWord_of_ne _ (fun he => hy _ (he ▸ hp)), Mem.setPage_of_ne _ _ hk])
      refine ⟨fl', he, .inr ⟨_, rfl, ?_⟩⟩
      exact (congrFun hnode _).trans (Function.update_self ..)

/-- `walk` with allocation comes to the lowest node, or runs out of pages. -/
theorem walk (h : Table s r fl) (va : Nat) :
    ∃ fl', Extends r s fl (s.walk r va true).2 fl' (leafAt s.mem r) ∧
      ((s.walk r va true).1 = none ∨
        ∃ n, (s.walk r va true).1 = some (n, (ix0 (vpn va) : Nat)) ∧
          nodeAt (s.walk r va true).2.mem r (.low (ix2 (vpn va)) (ix1 (vpn va))) = some n) := by
  have hlevels : ∃ fl', Extends r s fl (Phys.walkLevels true va 2 s r).2 fl'
      (leafAt s.mem r) ∧
      ((Phys.walkLevels true va 2 s r).1 = none ∨
        ∃ n, (Phys.walkLevels true va 2 s r).1 = some n ∧
          nodeAt (Phys.walkLevels true va 2 s r).2.mem r (.low (ix2 (vpn va)) (ix1 (vpn va))) =
            some n) := by
    cases hp : nodeAt s.mem r (.mid (ix2 (vpn va))) with
    | some p =>
      have hc := hp
      rw [nodeAt, ← px_two] at hc
      rw [Phys.walkLevels_child hc]
      exact h.walk_mid hp
    | none =>
      have hc := hp
      rw [nodeAt, ← px_two] at hc
      rw [Phys.walkLevels_new hc]
      by_cases hz : s.kalloc.1 = 0
      · rw [if_pos hz]
        exact ⟨fl, h.noPage hz, .inl rfl⟩
      · rw [if_neg hz, px_two]
        have hn := h.fresh hz
        have hlt := h.fresh_lt hz
        have hnode := nodeAt_addMid h.distinct hp hn hlt
        obtain ⟨fl', he⟩ := h.grow hz hp hnode (leafAt_addMid h.distinct hp hn hlt) (by
          intro k hk hy
          have hkr : k ≠ r := fun he => hy .root (by rw [he]; rfl)
          rw [Mem.setWord_of_ne _ hkr, Mem.setPage_of_ne _ _ hk])
        obtain ⟨fl'', he', hres⟩ := he.table.walk_mid
          ((congrFun hnode _).trans (Function.update_self ..))
        exact ⟨fl'', (he.trans he').congr fun v hv => he.leaf v hv, hres⟩
  obtain ⟨fl', he, hres⟩ := hlevels
  refine ⟨fl', ?_⟩
  rw [Phys.walk]
  generalize Phys.walkLevels true va 2 s r = w at he hres
  obtain ⟨o, s'⟩ := w
  rcases hres with ho | ⟨n, ho, hn⟩
  · cases ho
    exact ⟨he, .inl rfl⟩
  · cases ho
    exact ⟨he, .inr ⟨n, by rw [px_zero], hn⟩⟩

/-- An entry of a lowest node is written. -/
theorem setLeaf (h : Table s r fl) (hv : v < 2 ^ 27)
    (hp : nodeAt s.mem r (.low (ix2 v) (ix1 v)) = some p) (hw : w < 2 ^ 64) :
    Extends r s fl (s.setMem (s.mem.setWord p (ix0 v) w)) fl
      fun u => if u = v then w else leafAt s.mem r u := by
  have hnode := nodeAt_setLeaf h.distinct hp (ix0 v) w
  refine ⟨⟨?_, ?_, ?_, ?_⟩, fun u hu => leafAt_setLeaf h.distinct hv hp hw hu, ?_, [], rfl, ?_⟩
  · intro x n hx
    rw [Phys.setMem, hnode] at hx
    exact h.page x n hx
  · rw [Phys.setMem, hnode]
    exact h.distinct
  · apply h.chain.congr
    intro l hl
    apply s.mem.setWord_of_ne
    rintro rfl
    exact h.apart _ l hp hl
  · intro x n hx
    rw [Phys.setMem, hnode] at hx
    exact h.apart x n hx
  · intro x n hx
    rw [Phys.setMem, hnode]
    exact hx
  · intro n hn
    cases hn

/-- One page is mapped, or nothing is. -/
theorem mapOne (h : Table s r fl) (hpte : pa2pte pa ||| perm ||| PTE_V < 2 ^ 64) (a : Nat) :
    ∃ fl', (Phys.mapLoop r perm 0 s a pa).1 = true ∧
        Extends r s fl (Phys.mapLoop r perm 0 s a pa).2 fl'
          (fun u => if u = vpn a then pa2pte pa ||| perm ||| PTE_V else leafAt s.mem r u) ∨
      (Phys.mapLoop r perm 0 s a pa).1 = false ∧
        Extends r s fl (Phys.mapLoop r perm 0 s a pa).2 fl' (leafAt s.mem r) := by
  obtain ⟨fl', he, hres⟩ := h.walk a
  rw [Phys.mapLoop]
  generalize s.walk r a true = w at he hres
  obtain ⟨o, s'⟩ := w
  refine ⟨fl', ?_⟩
  rcases hres with ho | ⟨n, ho, hn⟩
  · cases ho
    exact .inr ⟨rfl, he⟩
  · cases ho
    dsimp only at he hn ⊢
    split
    · exact .inr ⟨rfl, he⟩
    · have hset := he.table.setLeaf (vpn_lt a) hn hpte
      refine .inl ⟨rfl, (he.trans hset).congr fun u hu => ?_⟩
      split
      · rfl
      · exact he.leaf u hu

theorem pte_lt (hpa : pa < 2 ^ 52) (hperm : perm < 2 ^ 64) :
    pa2pte pa ||| perm ||| PTE_V < 2 ^ 64 := by
  apply Nat.or_lt_two_pow
  · apply Nat.or_lt_two_pow
    · rw [pa2pte, Nat.shiftLeft_eq]
      omega
    · exact hperm
  · decide

/-- The pages of a range are mapped one after the other. -/
theorem mapRange (h : Table s r fl) (hv : v + k < 2 ^ 27) (hpa : pa < 2 ^ 52)
    (hperm : perm < 2 ^ 64) (hok : (Phys.mapLoop r perm k s (v * PGSIZE) pa).1 = true) :
    ∃ fl', Extends r s fl (Phys.mapLoop r perm k s (v * PGSIZE) pa).2 fl' fun u =>
      if v ≤ u ∧ u ≤ v + k then pa2pte ((pa + (u - v)) % 2 ^ 52) ||| perm ||| PTE_V
      else leafAt s.mem r u := by
  have hvpn : vpn (v * PGSIZE) = v := by
    rw [vpn, Nat.mul_div_cancel _ (by decide), Nat.mod_eq_of_lt (by omega)]
  induction k generalizing s fl v pa with
  | zero =>
    obtain ⟨fl', hres⟩ := h.mapOne (pte_lt hpa hperm) (v * PGSIZE)
    rcases hres with ⟨_, he⟩ | ⟨hno, _⟩
    · refine ⟨fl', he.congr fun u _ => ?_⟩
      rw [hvpn]
      by_cases huv : u = v
      · rw [if_pos huv, if_pos (by omega), huv, Nat.sub_self, Nat.add_zero, Nat.mod_eq_of_lt hpa]
      · rw [if_neg huv, if_neg (by omega)]
    · rw [hno] at hok
      cases hok
  | succ k ih =>
    obtain ⟨fl', hres⟩ := h.mapOne (pte_lt hpa hperm) (v * PGSIZE)
    rw [Phys.mapLoop_succ] at hok ⊢
    rcases hres with ⟨hone, he⟩ | ⟨hno, _⟩
    · have hnext : v * PGSIZE + PGSIZE = (v + 1) * PGSIZE := (Nat.succ_mul v PGSIZE).symm
      rw [if_pos hone, hnext] at hok ⊢
      have hvpn' : vpn ((v + 1) * PGSIZE) = v + 1 := by
        rw [vpn, Nat.mul_div_cancel _ (by decide), Nat.mod_eq_of_lt (by omega)]
      obtain ⟨fl'', he'⟩ := ih he.table (by omega) (Nat.mod_lt _ (by decide)) hok hvpn'
      refine ⟨fl'', (he.trans he').congr fun u hu => ?_⟩
      rw [he.leaf u hu, hvpn]
      by_cases huv : u = v
      · rw [if_neg (by omega), if_pos huv, if_pos (by omega), huv, Nat.sub_self, Nat.add_zero,
          Nat.mod_eq_of_lt hpa]
      · rw [if_neg huv]
        by_cases hin : v ≤ u ∧ u ≤ v + (k + 1)
        · have hpage : ((pa + 1) % 2 ^ 52 + (u - (v + 1))) % 2 ^ 52 = (pa + (u - v)) % 2 ^ 52 := by
            omega
          rw [if_pos (by omega), if_pos hin, hpage]
        · rw [if_neg (by omega), if_neg hin]
    · rw [if_neg (by rw [hno]; exact Bool.false_ne_true)] at hok
      cases hok

end Table

/-- Mapping pages changes the entries of these pages, and no others; a page that cannot be mapped
leaves every entry as it was, and the nodes made on the way are in the tree. -/
theorem mappages_exact (h : Table s r fl) (hsize : 0 < size) (hva : va + size ≤ 2 ^ 39)
    (hpa : pa < 2 ^ 52) (hperm : perm < 2 ^ 64) :
    ((s.mappages r va size pa perm).1 = true →
      (∃ fl', Table (s.mappages r va size pa perm).2 r fl') ∧
      ∀ u, u < 2 ^ 27 → (s.mappages r va size pa perm).2.lookup r u =
        if va / PGSIZE ≤ u ∧ u ≤ (va + size - 1) / PGSIZE then
          pa2pte ((pa + (u - va / PGSIZE)) % 2 ^ 52) ||| perm ||| PTE_V
        else s.lookup r u) ∧
    ((s.mappages r va size pa perm).1 = false → va / PGSIZE = (va + size - 1) / PGSIZE →
      (∀ u, u < 2 ^ 27 → (s.mappages r va size pa perm).2.lookup r u = s.lookup r u) ∧
      ∃ fl', Table (s.mappages r va size pa perm).2 r fl' ∧
        ∃ us, fl = us ++ fl' ∧
          ∀ n ∈ us, ∃ x, nodeAt (s.mappages r va size pa perm).2.mem r x = some n) := by
  have hlast : (va + size - 1) / PGSIZE < 2 ^ 27 := by
    rw [PGSIZE]
    omega
  have hle : va / PGSIZE ≤ (va + size - 1) / PGSIZE := Nat.div_le_div_right (by omega)
  have hloop : s.mappages r va size pa perm = Phys.mapLoop r perm
      ((va + size - 1) / PGSIZE - va / PGSIZE) s (va / PGSIZE * PGSIZE) pa := by
    rw [Phys.mappages, ← Nat.sub_mul, Nat.mul_div_cancel _ (by decide)]
  rw [hloop]
  generalize (va + size - 1) / PGSIZE = last at hlast hle ⊢
  generalize va / PGSIZE = v at hle ⊢
  refine ⟨fun hok => ?_, fun hno hone => ?_⟩
  · obtain ⟨fl', he⟩ := h.mapRange (by omega) hpa hperm hok
    refine ⟨⟨fl', he.table⟩, fun u hu => ?_⟩
    rw [Phys.lookup_eq _ r hu, Phys.lookup_eq _ r hu, he.leaf u hu, Nat.add_sub_cancel' hle]
  · rw [hone, Nat.sub_self] at hno ⊢
    obtain ⟨fl', hres⟩ := h.mapOne (Table.pte_lt hpa hperm) (last * PGSIZE)
    rcases hres with ⟨hok, _⟩ | ⟨_, he⟩
    · rw [hok] at hno
      cases hno
    · refine ⟨fun u hu => ?_, fl', he.table, he.linked⟩
      rw [Phys.lookup_eq _ r hu, Phys.lookup_eq _ r hu, he.leaf u hu]

/-- An empty root and two free pages. -/
def twoFree : Phys where
  mem := Mem.setWord (fun _ => Page.zero) 2 0 (3 * PGSIZE)
  freelist := 2
  freecnt := 2
  refcnt _ := 0
  taken := []
  failed := false

theorem twoFree_zero (h : n ≠ 2) : twoFree.mem n = Page.zero := by
  have hmem : twoFree.mem = Mem.setWord (fun _ => Page.zero) 2 0 (3 * PGSIZE) := rfl
  rw [hmem, Mem.setWord_of_ne _ h]

theorem twoFree_node (h : nodeAt twoFree.mem 1 x = some n) : x = .root ∧ n = 1 := by
  have hmid (i : Fin 512) : nodeAt twoFree.mem 1 (.mid i) = none := by
    rw [nodeAt, twoFree_zero (by decide), Page.word_zero, child_zero]
  cases x with
  | root =>
    cases h
    exact ⟨rfl, rfl⟩
  | mid i =>
    rw [hmid] at h
    cases h
  | low i j =>
    rw [nodeAt_low_none (hmid i)] at h
    cases h

theorem twoFree_table : Table twoFree 1 [2, 3] := by
  refine ⟨fun x n hx => ?_, fun x y n hx hy => ?_, ?_, fun x n hx => ?_⟩
  · rw [(twoFree_node hx).2]
    decide
  · rw [(twoFree_node hx).1, (twoFree_node hy).1]
  · have h₂ : (twoFree.mem 2).word 0 = 3 * PGSIZE := Mem.word_setWord_self _ _ _ (by decide)
    have h₃ : (twoFree.mem 3).word 0 = 0 := by
      rw [twoFree_zero (by decide), Page.word_zero]
    refine ⟨rfl, by decide, by decide, ?_⟩
    rw [h₂]
    refine ⟨rfl, by decide, by decide, ?_⟩
    rw [h₃]
    rfl
  · rw [(twoFree_node hx).2]
    decide

/-- One page mapped in the empty table; all other pages stay unmapped. -/
theorem mappages_exact_twoFree :
    (twoFree.mappages 1 0x5000 PGSIZE 7 PTE_R).1 = true ∧
      ∀ u, u < 2 ^ 27 → (twoFree.mappages 1 0x5000 PGSIZE 7 PTE_R).2.lookup 1 u =
        if 5 ≤ u ∧ u ≤ 5 then pa2pte ((7 + (u - 5)) % 2 ^ 52) ||| PTE_R ||| PTE_V
        else twoFree.lookup 1 u := by
  have hok : (twoFree.mappages 1 0x5000 PGSIZE 7 PTE_R).1 = true := by
    decide +kernel
  have hsize : 0 < PGSIZE := by decide
  have hva : 0x5000 + PGSIZE ≤ 2 ^ 39 := by decide
  have hpa : 7 < 2 ^ 52 := by decide
  have hperm : PTE_R < 2 ^ 64 := by decide
  obtain ⟨hmapped, _⟩ := mappages_exact twoFree_table hsize hva hpa hperm
  exact ⟨hok, (hmapped hok).2⟩

end KernelHobby
