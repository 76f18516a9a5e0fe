import Disguise.Proofs.Editing

/-!
Edits beside a block whose list is rebuilt. Operands and use sets are changed without a look at the
lists of the blocks, so it does not matter whether a list is rebuilt before such an edit or after
it; where the edit breaks off, it does so either way.
-/
namespace Disguise
open Results

namespace Graph
variable (g : Graph) (b : BlockId) (k : Block → Block)

theorem addUse_modifyBlock (v : Option Operand) (user : OpId) :
    (g.modifyBlock b k).addUse v user = (g.addUse v user).modifyBlock b k := by
  unfold addUse
  split <;> rfl

theorem removeUse_modifyBlock (v : Option Operand) (user : OpId) :
    (g.modifyBlock b k).removeUse v user = (·.modifyBlock b k) <$> g.removeUse v user := by
  unfold removeUse
  split
  · rw [op_modifyBlock, op_modifyBlock]
    split <;> rfl
  · rw [param_modifyBlock, op_modifyBlock]
    split <;> rfl
  · rfl

theorem addUses_modifyBlock (args : List (Option Operand)) (user : OpId) :
    (g.modifyBlock b k).addUses args user = (g.addUses args user).modifyBlock b k := by
  induction args generalizing g with
  | nil => rfl
  | cons v args ih =>
    change ((g.modifyBlock b k).addUse v user).addUses args user = _
    rw [addUse_modifyBlock]
    exact ih (g.addUse v user)

theorem removeUses_modifyBlock (args : List (Option Operand)) (user : OpId) :
    (g.modifyBlock b k).removeUses args user = (·.modifyBlock b k) <$> g.removeUses args user := by
  unfold removeUses
  exact foldlM_image (·.modifyBlock b k) (·.removeUse · user) (·.removeUse · user)
    (fun g v => g.removeUse_modifyBlock b k v user) args g

theorem setArg_modifyBlock (o : OpId) (i : Nat) (v : Option Operand) :
    (g.modifyBlock b k).setArg o i v = (·.modifyBlock b k) <$> g.setArg o i v := by
  unfold setArg
  rw [op_modifyBlock]
  dsimp only
  split
  · rfl
  · split
    · rw [removeUse_modifyBlock]
      cases g.removeUse _ o with
      | error e => rfl
      | ok g₁ =>
        change Except.ok (((g₁.modifyBlock b k).addUse v o).modifyOp o _) = _
        rw [addUse_modifyBlock]
        rfl
    · rfl

theorem redirectFrom_modifyBlock (o : OpId) (v : Option Operand) (user : OpId) (n i : Nat) :
    redirectFrom o v user n i (g.modifyBlock b k) =
      (·.modifyBlock b k) <$> redirectFrom o v user n i g := by
  induction n generalizing g i with
  | zero => rfl
  | succ n ih =>
    unfold redirectFrom
    rw [op_modifyBlock]
    split
    · rw [setArg_modifyBlock, map_bind, map_of_bind]
      congr
      funext g₁
      exact ih g₁ (i + 1)
    · exact ih g (i + 1)

theorem replaceAllUses_modifyBlock (o : OpId) (v : Option Operand) :
    (g.modifyBlock b k).replaceAllUses o v = (·.modifyBlock b k) <$> g.replaceAllUses o v := by
  unfold replaceAllUses
  split
  · rfl
  · exact foldlM_image (·.modifyBlock b k) (·.redirect o v ·) (·.redirect o v ·)
      (fun g user => g.redirectFrom_modifyBlock b k o v user _ 0) _ g

theorem enlist_modifyBlock (c : BlockId) (o : OpId) :
    (g.modifyBlock b k).enlist c o = (g.enlist c o).modifyBlock b k :=
  addUses_modifyBlock (g.modifyOp o fun op => { op with block := some c }) b k (g.op o).args o

variable {k} (hk : ∀ bl, (k bl).name = bl.name)
include hk

theorem attach_modifyBlock (c : BlockId) (ops : List OpId) :
    (g.modifyBlock b k).attach c ops = (·.modifyBlock b k) <$> g.attach c ops := by
  refine foldlM_image (·.modifyBlock b k) (·.attachOp c ·) (·.attachOp c ·) (fun g o => ?_) ops g
  unfold attachOp
  rw [op_modifyBlock]
  split
  · rename_i other _
    have hname : ((g.modifyBlock b k).block other).name = (g.block other).name := by
      rw [block_modifyBlock]
      split
      · rename_i hother
        rw [hk, hother]
      · rfl
    rw [hname]
    rfl
  · rw [enlist_modifyBlock]
    rfl

end Graph

namespace Graph

/-- The blocks list what they did, ops belong where they did and have as many slots. -/
structure SamePlaces (g g' : Graph) : Prop where
  blocks : g'.blocks = g.blocks
  owner : ∀ u, (g'.op u).block = (g.op u).block
  arity : ∀ u, (g'.op u).args.length = (g.op u).args.length

namespace SamePlaces
variable {g g' g'' : Graph}

theorem refl (g : Graph) : SamePlaces g g := ⟨rfl, fun _ => rfl, fun _ => rfl⟩

theorem trans (h : SamePlaces g g') (h' : SamePlaces g' g'') : SamePlaces g g'' where
  blocks := h'.blocks.trans h.blocks
  owner u := (h'.owner u).trans (h.owner u)
  arity u := (h'.arity u).trans (h.arity u)

theorem list_eq (h : SamePlaces g g') (b : BlockId) : (g'.block b).ops = (g.block b).ops := by
  rw [Graph.block, Graph.block, h.blocks]

theorem of_sameShape (h : SameShape g g') : SamePlaces g g' where
  blocks := h.blocks
  owner := h.block
  arity u := by rw [h.args]

theorem modifyOp {o : OpId} {f : Op → Op} (hblock : (f (g.op o)).block = (g.op o).block)
    (hargs : (f (g.op o)).args.length = (g.op o).args.length) : SamePlaces g (g.modifyOp o f) where
  blocks := rfl
  owner u := by
    rw [op_modifyOp]
    split
    · rename_i hu
      rw [hu, hblock]
    · rfl
  arity u := by
    rw [op_modifyOp]
    split
    · rename_i hu
      rw [hu, hargs]
    · rfl

theorem of_removeUse {v : Option Operand} {user : OpId} (h : g.removeUse v user = .ok g') :
    SamePlaces g g' := by
  unfold removeUse at h
  split at h
  · split at h
    · cases h
    · obtain rfl := Except.ok.inj h
      exact modifyOp rfl rfl
  · split at h
    · cases h
    · obtain rfl := Except.ok.inj h
      exact ⟨rfl, fun _ => rfl, fun _ => rfl⟩
  · obtain rfl := Except.ok.inj h
    exact refl g

theorem of_removeUses {args : List (Option Operand)} {user : OpId}
    (h : g.removeUses args user = .ok g') : SamePlaces g g' :=
  foldlM_keeps (P := SamePlaces g) (refl g) (fun _ _ _ _ hs h₁ => hs.trans (of_removeUse h₁)) h

theorem of_setArg {o : OpId} {i : Nat} {v : Option Operand} (h : g.setArg o i v = .ok g') :
    SamePlaces g g' := by
  unfold setArg at h
  dsimp only at h
  split at h
  · cases h
  · rename_i old hold
    have hset : ∀ {x : Graph}, SamePlaces g x →
        SamePlaces g (x.modifyOp o fun op => { op with args := op.args.set i v }) :=
      fun hx => hx.trans (modifyOp rfl List.length_set)
    split at h
    · rw [map_bind, bind_eq_ok] at h
      obtain ⟨g₁, h₁, h⟩ := h
      obtain rfl := pure_eq_ok.1 h
      exact hset ((of_removeUse h₁).trans (of_sameShape (sameShape_addUse g₁ v o)))
    · obtain rfl := Except.ok.inj h
      exact hset (refl g)

theorem of_redirectFrom {o user : OpId} {v : Option Operand} {n i : Nat}
    (h : redirectFrom o v user n i g = .ok g') : SamePlaces g g' := by
  induction n generalizing g i with
  | zero =>
    obtain rfl := Except.ok.inj h
    exact refl g
  | succ n ih =>
    unfold redirectFrom at h
    split at h
    · obtain ⟨g₁, h₁, h⟩ := bind_eq_ok.1 h
      exact (of_setArg h₁).trans (ih h)
    · exact ih h

theorem of_replaceAllUses {o : OpId} {v : Option Operand} (h : g.replaceAllUses o v = .ok g') :
    SamePlaces g g' := by
  unfold replaceAllUses at h
  split at h
  · obtain rfl := Except.ok.inj h
    exact refl g
  · exact foldlM_keeps (P := SamePlaces g) (refl g)
      (fun _ _ _ _ hs h₁ => hs.trans (of_redirectFrom h₁)) h

end SamePlaces

variable {g g' : Graph} {b : BlockId}

/-- Only ops that were detached and are all different get attached; they end up in the block. -/
theorem of_attach {ops : List OpId} (h : g.attach b ops = .ok g') : ops.Nodup ∧
    (∀ o ∈ ops, (g.op o).block = none) ∧ g'.blocks = g.blocks ∧
    (∀ u, (g'.op u).block = if u ∈ ops then some b else (g.op u).block) ∧
    ∀ u, (g'.op u).args.length = (g.op u).args.length := by
  induction ops generalizing g with
  | nil =>
    obtain rfl := Except.ok.inj h
    exact ⟨.nil, by simp, rfl, by simp, fun _ => rfl⟩
  | cons o ops ih =>
    simp only [attach, List.foldlM_cons, attachOp] at h
    cases hfree : (g.op o).block with
    | some c => simp [hfree, bind, Except.bind] at h
    | none =>
      rw [hfree] at h
      have hsame : SamePlaces (g.modifyOp o fun op => { op with block := some b }) (g.enlist b o) :=
        .of_sameShape (addUses_spec _ (g.op o).args o).1
      have howner : ∀ u, ((g.enlist b o).op u).block =
          if u = o then some b else (g.op u).block := by
        intro u
        rw [hsame.owner, op_modifyOp]
        split <;> rfl
      obtain ⟨hn, hdetached, hblocks, howner', harity⟩ := ih h
      have hnot : o ∉ ops := by
        intro ho
        have := hdetached o ho
        rw [howner, if_pos rfl] at this
        cases this
      refine ⟨List.nodup_cons.2 ⟨hnot, hn⟩, ?_, hblocks.trans hsame.blocks, fun u => ?_,
        fun u => ?_⟩
      · intro q hq
        rcases List.mem_cons.1 hq with rfl | hq
        · exact hfree
        · have hq' := hdetached q hq
          have hne : q ≠ o := fun heq => hnot (heq ▸ hq)
          rw [howner, if_neg hne] at hq'
          exact hq'
      · rw [howner' u, howner u]
        by_cases hu : u = o
        · simp [hu]
        · simp [hu]
      · rw [harity u, hsame.arity u, op_modifyOp]
        split
        · rename_i hu
          rw [hu]
        · rfl

/-- An insertion takes nothing out of a list. -/
theorem of_insertBefore {ref : OpId} {ops : List OpId} (h : g.insertBefore b ref ops = .ok g') :
    (∀ c, ∀ u ∈ (g.block c).ops, u ∈ (g'.block c).ops) ∧
    (∀ u, (g'.op u).block = if u ∈ ops then some b else (g.op u).block) ∧
    ∀ u, (g'.op u).args.length = (g.op u).args.length := by
  obtain ⟨i, -, h⟩ := bind_eq_ok.1 h
  obtain ⟨g₁, h₁, h⟩ := bind_eq_ok.1 h
  obtain ⟨-, -, hblocks, howner, harity⟩ := of_attach h₁
  obtain rfl := pure_eq_ok.1 h
  have hblock : ∀ c, g₁.block c = g.block c := fun c => congrArg (·.get c.idx) hblocks
  refine ⟨fun c u hu => ?_, howner, harity⟩
  rw [block_modifyBlock]
  split
  · rename_i hc
    rw [← List.take_append_drop i (g.block c).ops] at hu
    simp only [hblock, ← hc, List.mem_append] at hu ⊢
    exact hu.elim (fun h => .inl (.inl h)) .inr
  · rwa [hblock]

/-- What is removed was in the list of its block; it belongs to no block afterwards. -/
theorem of_remove {o : OpId} (h : g.remove o = .ok (.ok g')) : ∃ c, (g.op o).block = some c ∧
    g'.blocks = (g.modifyBlock c fun bl => { bl with ops := bl.ops.erase o }).blocks ∧
    (∀ u, (g'.op u).block = if u = o then none else (g.op u).block) ∧
    ∀ u, (g'.op u).args.length = (g.op u).args.length := by
  unfold remove at h
  dsimp only at h
  cases hc : (g.op o).block with
  | none => simp [hc] at h
  | some c =>
    simp only [hc] at h
    split at h
    · simp at h
    · obtain ⟨-, -, h⟩ := bind_eq_ok.1 h
      obtain ⟨g₁, h₁, h⟩ := bind_eq_ok.1 h
      have hsame := SamePlaces.of_removeUses h₁
      obtain rfl := Except.ok.inj (pure_eq_ok.1 h)
      refine ⟨c, rfl, hsame.blocks, fun u => ?_, fun u => ?_⟩
      · rw [op_modifyOp]
        split
        · rfl
        · exact hsame.owner u
      · rw [op_modifyOp]
        split
        · rename_i hu
          rw [hu]
          exact hsame.arity o
        · exact hsame.arity u

end Graph
end Disguise
