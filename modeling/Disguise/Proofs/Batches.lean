import Disguise.Proofs.Commuting
import Disguise.Proofs.Sessions

/-!
Batched edits of a block. What an editor holds back until it is committed might as well be inserted
at once: after every move the settled graph is the one that immediate insertions have made, and a
commit settles the graph. In particular a visit of a block by the engine is the same as applying
each chosen rule on the spot to the ops that the block had at the start.
-/
namespace Disguise
open Results

namespace Editor

/-- An edit that does not wait for a commit. -/
inductive Change where
  | setArg (o : OpId) (i : Nat) (v : Option Operand)
  | replaceAllUses (o : OpId) (v : Option Operand)
  | remove (o : OpId)

/-- The graph after a change; an op that must not be removed is left where it is. -/
def Change.on (g : Graph) : Change → Except Violation Graph
  | setArg o i v => g.setArg o i v
  | replaceAllUses o v => g.replaceAllUses o v
  | remove o => do
    match ← g.remove o with
    | .ok g => pure g
    | .error _ => pure g

inductive Move where
  | insert (ref : OpId) (ops : List OpId)
  | change (c : Change)

namespace Move

def points : Move → List OpId
  | insert ref _ => [ref]
  | change _ => []

def inserted : Move → List OpId
  | insert _ ops => ops
  | change _ => []

def removed : Move → List OpId
  | change (.remove o) => [o]
  | _ => []

/-- A move in block `b` with nothing held back. -/
def atOnce (b : BlockId) (g : Graph) : Move → Except Violation Graph
  | insert ref ops => g.insertBefore b ref ops
  | change c => c.on g

/-- A move with the insertions held back by an editor. -/
def batched (s : Editor × Graph) : Move → Except Violation (Editor × Graph)
  | insert ref ops => s.1.insertBefore s.2 ref ops
  | change c => (s.1, ·) <$> c.on s.2

end Move

def editAtOnce (g : Graph) (b : BlockId) (moves : List Move) : Except Violation Graph :=
  moves.foldlM (Move.atOnce b) g

/-- Opens an editor on a block, makes the moves and commits. -/
def editBatched (g : Graph) (b : BlockId) (moves : List Move) : Except Violation Graph := do
  let (e, g) ← moves.foldlM Move.batched ({ block := b }, g)
  (·.2) <$> e.commit g

/-- The insertion points are in the list of the block, and neither these nor inserted ops are
removed. -/
structure Script (g : Graph) (b : BlockId) (moves : List Move) : Prop where
  listed : ∀ ref ∈ moves.flatMap Move.points, ref ∈ (g.block b).ops
  keptPoints : ∀ o ∈ moves.flatMap Move.removed, o ∉ moves.flatMap Move.points
  keptOps : ∀ o ∈ moves.flatMap Move.removed, o ∉ moves.flatMap Move.inserted

/-- The inserted ops are detached and all different, an operand slot is there to be set, and what is
removed does not wait in another editor. -/
structure Proper (g : Graph) (waiting : BlockId → List OpId) (moves : List Move) : Prop where
  nodup : (moves.flatMap Move.inserted).Nodup
  detached : ∀ o ∈ moves.flatMap Move.inserted, (g.op o).block = none
  slots : ∀ o i v, .change (.setArg o i v) ∈ moves → i < (g.op o).args.length
  idle : ∀ o ∈ moves.flatMap Move.removed, ∀ b, o ∉ waiting b

end Editor

namespace Editor
variable {e : Editor} {g g' : Graph} {o ref : OpId} {ops : List OpId}

/-- The block of an editor has its ops once each, and none of those held back is in its list. -/
structure AtWork (e : Editor) (g : Graph) : Prop where
  there : e.block.idx < g.blocks.size
  nodup : (g.block e.block).ops.Nodup
  owner : ∀ o ∈ (g.block e.block).ops, (g.op o).block = some e.block
  balanced : e.Balanced (g.block e.block).ops
  apart : ∀ o ∈ (g.block e.block).ops, o ∉ e.queuedOps

theorem mem_queuedOps_of_waiting (h : o ∈ e.waiting ref) : o ∈ e.queuedOps := by
  obtain ⟨entry, hentry, ho⟩ := List.mem_flatMap.1 h
  exact List.mem_flatMap.2 ⟨entry, List.mem_of_mem_filter hentry, ho⟩

theorem queuedOps_queued : (e.queued ref ops).queuedOps = e.queuedOps ++ ops := by
  simp [queuedOps, queued]

/-- An op that is not held back is in the settled list if and only if it is in the list. -/
theorem mem_merged (ho : o ∉ e.queuedOps) {l : List OpId} : o ∈ e.merged l ↔ o ∈ l := by
  constructor
  · intro h
    obtain ⟨p, hp, hop⟩ := List.mem_flatMap.1 h
    rcases List.mem_append.1 hop with hwait | hself
    · exact absurd (mem_queuedOps_of_waiting hwait) ho
    · rwa [List.mem_singleton.1 hself]
  · exact fun h => (e.sublist_merged l).subset h

namespace AtWork

theorem opened {b : BlockId} (hb : b.idx < g.blocks.size) (hn : (g.block b).ops.Nodup)
    (howner : ∀ o ∈ (g.block b).ops, (g.op o).block = some b) : AtWork { block := b } g where
  there := hb
  nodup := hn
  owner := howner
  balanced := by simp [Balanced, waiting]
  apart := by simp [queuedOps]

variable (h : e.AtWork g)
include h

theorem commit : ∃ e', e.commit g = .ok (e', e.settle g) := commit_eq_ok h.there h.balanced

/-- The work goes on when lists and owners are as they were. -/
theorem congr (hblocks : g'.blocks = g.blocks)
    (howner : ∀ o ∈ (g.block e.block).ops, (g'.op o).block = (g.op o).block) : e.AtWork g' := by
  have hblock : g'.block e.block = g.block e.block := by rw [Graph.block, Graph.block, hblocks]
  constructor
  · rw [hblocks]
    exact h.there
  · rw [hblock]
    exact h.nodup
  · intro o ho
    rw [hblock] at ho
    rw [howner o ho]
    exact h.owner o ho
  · rw [hblock]
    exact h.balanced
  · rw [hblock]
    exact h.apart

/-- The insertion point of a move is where it is in the settled list. -/
theorem placeIn_settle {pre post : List OpId}
    (hsplit : (g.block e.block).ops = pre ++ ref :: post) :
    (e.settle g).placeIn e.block ref = .ok (e.merged pre ++ e.waiting ref).length := by
  have href : ref ∈ (g.block e.block).ops := by simp [hsplit]
  have hnot : ref ∉ e.queuedOps := h.apart ref href
  have hpre : ref ∉ e.merged pre ++ e.waiting ref := by
    rw [List.mem_append, mem_merged hnot, not_or]
    constructor
    · exact (not_mem_of_nodup h.nodup hsplit).1
    · exact fun hmem => hnot (mem_queuedOps_of_waiting hmem)
  have hlist : ((e.settle g).block e.block).ops =
      e.merged pre ++ e.waiting ref ++ ref :: e.merged post := by
    rw [block_settle, if_pos rfl, List.append_assoc, ← merged_cons, ← merged_append, ← hsplit]
  exact Graph.placeIn_eq (h.owner ref href) hlist hpre

/-- Queueing ops and settling is inserting them into the settled graph. -/
theorem insert (href : ref ∈ (g.block e.block).ops) :
    (e.settle g).insertBefore e.block ref ops =
      (fun s => s.1.settle s.2) <$> e.insertBefore g ref ops := by
  obtain ⟨pre, post, hsplit⟩ := List.append_of_mem href
  have hattach : (e.settle g).attach e.block ops = e.settle <$> g.attach e.block ops :=
    Graph.attach_modifyBlock g e.block (k := fun bl => { bl with ops := e.merged bl.ops })
      (fun _ => rfl) e.block ops
  unfold Graph.insertBefore Graph.insertAt insertBefore
  rw [h.placeIn_settle hsplit, ok_bind, hattach, if_neg (by simp [h.owner ref href])]
  cases hok : g.attach e.block ops with
  | error v => rfl
  | ok g₁ =>
    obtain ⟨-, -, hblocks, -, -⟩ := Graph.of_attach hok
    have hlist : (g₁.block e.block).ops = pre ++ ref :: post := by
      rw [Graph.block, hblocks]
      exact hsplit
    have hn := h.nodup
    rw [hsplit] at hn
    refine congrArg Except.ok ?_
    show (g₁.modifyBlock _ _).modifyBlock _ _ = (e.queued ref ops).settle g₁
    rw [Graph.modifyBlock_modifyBlock]
    apply Graph.modifyBlock_congr
    simp only [Function.comp_apply, hlist, merged_queued hn, merged_append, merged_cons,
      ← List.append_assoc, List.take_left', List.drop_left']

theorem queued {s : Editor × Graph} (href : ref ∈ (g.block e.block).ops)
    (hok : e.insertBefore g ref ops = .ok s) :
    s.1 = e.queued ref ops ∧ s.1.AtWork s.2 ∧ s.2.blocks = g.blocks := by
  unfold insertBefore at hok
  rw [if_neg (by simp [h.owner ref href]), bind_eq_ok] at hok
  obtain ⟨g₁, hattach, hok⟩ := hok
  obtain rfl := pure_eq_ok.1 hok
  obtain ⟨hn, hdetached, hblocks, howner, -⟩ := Graph.of_attach hattach
  have hlist : (g₁.block e.block).ops = (g.block e.block).ops := by
    rw [Graph.block, hblocks]
    rfl
  have hnot : ∀ o ∈ (g.block e.block).ops, o ∉ ops := by
    intro o ho hmem
    have := h.owner o ho
    rw [hdetached o hmem] at this
    cases this
  refine ⟨rfl, ⟨?_, ?_, fun o ho => ?_, ?_, fun o ho => ?_⟩, hblocks⟩
  · show e.block.idx < g₁.blocks.size
    rw [hblocks]
    exact h.there
  · show (g₁.block e.block).ops.Nodup
    rw [hlist]
    exact h.nodup
  · replace ho : o ∈ (g₁.block e.block).ops := ho
    rw [hlist] at ho
    rw [howner, if_neg (hnot o ho)]
    exact h.owner o ho
  · obtain ⟨pre, post, hsplit⟩ := List.append_of_mem href
    have hn := h.nodup
    have hbal := h.balanced
    show (e.queued ref ops).Balanced (g₁.block e.block).ops
    rw [hlist]
    rw [hsplit] at hn hbal ⊢
    exact hbal.queued hn
  · replace ho : o ∈ (g₁.block e.block).ops := ho
    rw [hlist] at ho
    show o ∉ (e.queued ref ops).queuedOps
    rw [queuedOps_queued, List.mem_append, not_or]
    exact ⟨h.apart o ho, hnot o ho⟩

omit h in
theorem flatMap_erase {w : OpId → List OpId} (hw : w o = []) (l : List OpId) :
    (l.erase o).flatMap w = l.flatMap w := by
  induction l with
  | nil => rfl
  | cons a l ih =>
    by_cases ha : a = o
    · simp [ha, hw]
    · rw [List.erase_cons_tail (by simpa using ha), List.flatMap_cons, List.flatMap_cons, ih]

omit h in
/-- An op before which nothing waits leaves the settled list as it leaves the list. -/
theorem merged_erase (hnot : o ∉ e.queuedOps) (hwait : e.waiting o = []) (l : List OpId) :
    e.merged (l.erase o) = (e.merged l).erase o := by
  induction l with
  | nil => rfl
  | cons a l ih =>
    rw [merged_cons]
    by_cases ha : a = o
    · simp [ha, hwait]
    · have hfree : o ∉ e.waiting a := fun hmem => hnot (mem_queuedOps_of_waiting hmem)
      rw [List.erase_cons_tail (by simpa using ha), merged_cons, ih,
        List.erase_append_right _ hfree, List.erase_cons_tail (by simpa using ha)]

omit h in
theorem settle_erase (hnot : o ∉ e.queuedOps) (hwait : e.waiting o = []) (c : BlockId) :
    (e.settle g).modifyBlock c (fun bl => { bl with ops := bl.ops.erase o }) =
      e.settle (g.modifyBlock c fun bl => { bl with ops := bl.ops.erase o }) := by
  unfold settle
  by_cases hc : c = e.block
  · subst hc
    rw [Graph.modifyBlock_modifyBlock, Graph.modifyBlock_modifyBlock]
    apply Graph.modifyBlock_congr
    simp only [Function.comp_apply, merged_erase hnot hwait]
  · exact g.modifyBlock_comm _ _ (Ne.symm hc) _

omit h in
theorem remove (hnot : o ∉ e.queuedOps) (hwait : e.waiting o = []) :
    (e.settle g).remove o = (·.map e.settle) <$> g.remove o := by
  unfold Graph.remove
  rw [op_settle]
  dsimp only
  cases hb : (g.op o).block with
  | none => rfl
  | some c =>
    dsimp only
    split
    · rfl
    · have hmem : o ∈ ((e.settle g).block c).ops ↔ o ∈ (g.block c).ops := by
        rw [block_settle]
        split
        · exact mem_merged hnot
        · rfl
      by_cases ho : o ∈ (g.block c).ops
      · obtain ⟨i, hi⟩ := Execution.exists_position hb ho
        obtain ⟨j, hj⟩ := Execution.exists_position (g := e.settle g) hb (hmem.2 ho)
        rw [hi, hj, ok_bind, ok_bind, settle_erase hnot hwait, settle, Graph.removeUses_modifyBlock,
          map_bind, map_of_bind]
        rfl
      · have hnone : ∀ x : Graph, (x.op o).block = some c → o ∉ (x.block c).ops →
            x.position o = .error .opNotInBlock := by
          intro x hx hox
          simp only [Graph.position, hx, List.idxOf?_eq_none_iff.2 hox]
        rw [hnone g hb ho, hnone (e.settle g) hb (mt hmem.1 ho)]
        rfl

theorem removed (hwait : e.waiting o = []) (hok : g.remove o = .ok (.ok g')) : e.AtWork g' := by
  obtain ⟨c, hc, hblocks, howner, -⟩ := Graph.of_remove hok
  have hlist : (g'.block e.block).ops = (g.block e.block).ops.erase o := by
    rw [Graph.block, hblocks, ← Graph.block, Graph.block_modifyBlock]
    split
    · rename_i heq
      rw [heq]
    · rename_i hne
      refine (List.erase_of_not_mem fun ho => hne ?_).symm
      exact Option.some.inj ((h.owner o ho).symm.trans hc)
  refine ⟨?_, ?_, fun u hu => ?_, ?_, fun u hu => ?_⟩
  · rw [hblocks, Graph.modifyBlock, Table.size_modify]
    exact Nat.lt_of_lt_of_le h.there (Nat.le_max_left _ _)
  · rw [hlist]
    exact h.nodup.erase o
  · rw [hlist, h.nodup.mem_erase_iff] at hu
    rw [howner, if_neg hu.1]
    exact h.owner u hu.2
  · have hbal := h.balanced
    unfold Balanced at hbal ⊢
    rw [hlist, flatMap_erase hwait, hbal]
  · rw [hlist] at hu
    exact h.apart u (List.mem_of_mem_erase hu)

end AtWork

/-- A change that succeeds leaves all places as they are or takes out one op. -/
theorem Change.of_on {c : Change} (h : c.on g = .ok g') :
    g.SamePlaces g' ∨ ∃ o, c = .remove o ∧ g.remove o = .ok (.ok g') := by
  cases c with
  | setArg o i v => exact .inl (.of_setArg h)
  | replaceAllUses o v => exact .inl (.of_replaceAllUses h)
  | remove o =>
    obtain ⟨r, hr, h⟩ := bind_eq_ok.1 h
    cases r with
    | ok g₁ =>
      obtain rfl := pure_eq_ok.1 h
      exact .inr ⟨o, rfl, hr⟩
    | error refusal =>
      obtain rfl := pure_eq_ok.1 h
      exact .inl (.refl g)

section
variable {c : Change} (hc : ∀ o, c = .remove o → o ∉ e.queuedOps ∧ e.waiting o = [])
include hc

theorem on_settle : c.on (e.settle g) = e.settle <$> c.on g := by
  cases c with
  | setArg o i v => exact g.setArg_modifyBlock _ _ o i v
  | replaceAllUses o v => exact g.replaceAllUses_modifyBlock _ _ o v
  | remove o =>
    obtain ⟨hnot, hwait⟩ := hc o rfl
    simp only [Change.on]
    rw [AtWork.remove hnot hwait, map_bind, map_of_bind]
    congr
    funext r
    cases r <;> rfl

theorem AtWork.changed (h : e.AtWork g) (hok : c.on g = .ok g') : e.AtWork g' := by
  rcases Change.of_on hok with hsame | ⟨o, rfl, hremove⟩
  · exact h.congr hsame.blocks fun o _ => hsame.owner o
  · exact h.removed (hc o rfl).2 hremove

end

namespace Script
variable {b : BlockId} {moves : List Move} {c : Change}

theorem insert (h : Script g b (.insert ref ops :: moves))
    (hlist : ∀ u ∈ (g.block b).ops, u ∈ (g'.block b).ops) : Script g' b moves where
  listed p hp := hlist p (h.listed p (by simp [hp]))
  keptPoints o ho := by
    have := h.keptPoints o (by simpa [Move.removed] using ho)
    simp_all [Move.points]
  keptOps o ho := by
    have := h.keptOps o (by simpa [Move.removed] using ho)
    simp_all [Move.inserted]

theorem change (h : Script g b (.change c :: moves)) (hok : c.on g = .ok g') :
    Script g' b moves where
  listed ref href := by
    have hold : ref ∈ (g.block b).ops := h.listed ref (by simpa [Move.points] using href)
    rcases Change.of_on hok with hsame | ⟨o, rfl, hremove⟩
    · rwa [hsame.list_eq]
    · obtain ⟨d, -, hblocks, -, -⟩ := Graph.of_remove hremove
      have hne : ref ≠ o := by
        rintro rfl
        have := h.keptPoints ref (by simp [Move.removed])
        simp_all [Move.points]
      rw [Graph.block, hblocks, ← Graph.block, Graph.block_modifyBlock]
      split
      · rename_i heq
        rw [heq] at hold
        exact (List.mem_erase_of_ne hne).2 hold
      · exact hold
  keptPoints o ho := by
    have := h.keptPoints o (by simp_all [Move.removed])
    simp_all [Move.points]
  keptOps o ho := by
    have := h.keptOps o (by simp_all [Move.removed])
    simp_all [Move.inserted]

end Script

/-- What a script that is under way asks of an editor: what it removes is not held back, nor does
anything wait before it. -/
structure Ahead (e : Editor) (g : Graph) (moves : List Move) : Prop
    extends Script g e.block moves where
  idle : ∀ o ∈ moves.flatMap Move.removed, o ∉ e.queuedOps ∧ e.waiting o = []

theorem Ahead.insert {moves : List Move} (h : e.Ahead g (.insert ref ops :: moves))
    (hblocks : g'.blocks = g.blocks) : (e.queued ref ops).Ahead g' moves where
  toScript := h.toScript.insert fun u hu => by
    rw [Graph.block, hblocks]
    exact hu
  idle o ho := by
    have ho' : o ∈ (Move.insert ref ops :: moves).flatMap Move.removed := by
      simpa [Move.removed] using ho
    obtain ⟨hnot, hwait⟩ := h.idle o ho'
    have hpoint := h.keptPoints o ho'
    have hop := h.keptOps o ho'
    simp only [List.flatMap_cons, Move.points, Move.inserted, List.mem_append,
      List.mem_singleton, not_or] at hpoint hop
    constructor
    · rw [queuedOps_queued, List.mem_append, not_or]
      exact ⟨hnot, hop.1⟩
    · rw [waiting_queued, hwait, if_neg hpoint.1]
      rfl

theorem Ahead.change {moves : List Move} {c : Change} (h : e.Ahead g (.change c :: moves))
    (hok : c.on g = .ok g') : e.Ahead g' moves where
  toScript := h.toScript.change hok
  idle o ho := h.idle o (by simp [ho])

/-- Move by move, the settled graph is the one that is edited at once. -/
theorem AtWork.run {moves : List Move} (h : e.AtWork g) (ha : e.Ahead g moves) :
    moves.foldlM (Move.atOnce e.block) (e.settle g) =
      (fun s => s.1.settle s.2) <$> moves.foldlM Move.batched (e, g) ∧
    ∀ s, moves.foldlM Move.batched (e, g) = .ok s → s.1.AtWork s.2 := by
  induction moves generalizing e g with
  | nil =>
    refine ⟨rfl, fun s hs => ?_⟩
    obtain rfl := pure_eq_ok.1 hs
    exact h
  | cons m moves ih =>
    rw [List.foldlM_cons, List.foldlM_cons]
    cases m with
    | insert ref ops =>
      have href : ref ∈ (g.block e.block).ops := ha.listed ref (by simp [Move.points])
      simp only [Move.atOnce, Move.batched]
      rw [h.insert href, map_bind, map_of_bind]
      cases hok : e.insertBefore g ref ops with
      | error v => exact ⟨rfl, fun s hs => nomatch hs⟩
      | ok s =>
        obtain ⟨hqueued, hwork, hblocks⟩ := h.queued href hok
        obtain ⟨e', g'⟩ := s
        obtain rfl : e' = e.queued ref ops := hqueued
        exact ih hwork (ha.insert hblocks)
    | change c =>
      have hc : ∀ o, c = .remove o → o ∉ e.queuedOps ∧ e.waiting o = [] :=
        fun o heq => ha.idle o (by simp [heq, Move.removed])
      simp only [Move.atOnce, Move.batched]
      rw [on_settle hc, map_bind, map_of_bind, map_bind]
      cases hok : c.on g with
      | error v => exact ⟨rfl, fun s hs => nomatch hs⟩
      | ok g' => exact ih (h.changed hc hok) (ha.change hok)

section
variable {b : BlockId} {moves : List Move} {waiting : BlockId → List OpId}

theorem editBatched_eq (hw : AtWork { block := b } g) (hs : Script g b moves) :
    editBatched g b moves = editAtOnce g b moves := by
  have hahead : Ahead { block := b } g moves := ⟨hs, fun o _ => ⟨by simp [queuedOps], rfl⟩⟩
  obtain ⟨hrun, hwork⟩ := hw.run hahead
  have hsettle : ({ block := b } : Editor).settle g = g := settle_of_nil hw.there (by
    simp [Editor.waiting])
  rw [hsettle] at hrun
  unfold editBatched editAtOnce
  show _ = moves.foldlM (Move.atOnce b) g
  rw [hrun]
  cases hok : moves.foldlM Move.batched ({ block := b }, g) with
  | error v => rfl
  | ok s =>
    obtain ⟨e', hcommit⟩ := (hwork s hok).commit
    show (·.2) <$> s.1.commit s.2 = .ok (s.1.settle s.2)
    rw [hcommit]
    rfl

theorem Proper.insert (h : Proper g waiting (.insert ref ops :: moves))
    (hok : g.insertBefore b ref ops = .ok g') : Proper g' waiting moves := by
  obtain ⟨-, howner, harity⟩ := Graph.of_insertBefore hok
  have hn := List.nodup_append.1 h.nodup
  constructor
  · exact hn.2.1
  · intro o ho
    rw [howner, if_neg fun (hmem : o ∈ ops) => hn.2.2 o hmem o ho rfl]
    exact h.detached o (List.mem_append_right _ ho)
  · intro o i v hmem
    rw [harity]
    exact h.slots o i v (List.mem_cons_of_mem _ hmem)
  · exact h.idle

theorem Proper.change {c : Change} (h : Proper g waiting (.change c :: moves))
    (hok : c.on g = .ok g') : Proper g' waiting moves := by
  have hkeep : (∀ u, (g.op u).block = none → (g'.op u).block = none) ∧
      ∀ u, (g'.op u).args.length = (g.op u).args.length := by
    rcases Change.of_on hok with hsame | ⟨o, -, hremove⟩
    · exact ⟨fun u hu => (hsame.owner u).trans hu, hsame.arity⟩
    · obtain ⟨-, -, -, howner, harity⟩ := Graph.of_remove hremove
      refine ⟨fun u hu => ?_, harity⟩
      rw [howner]
      split
      · rfl
      · exact hu
  constructor
  · exact h.nodup
  · exact fun o ho => hkeep.1 o (h.detached o ho)
  · intro o i v hmem
    rw [hkeep.2]
    exact h.slots o i v (List.mem_cons_of_mem _ hmem)
  · exact fun o ho => h.idle o (List.mem_append_right _ ho)

/-- A proper change of an exact graph is carried out. -/
theorem exists_changed {c : Change} (hex : g.Exact waiting)
    (h : Proper g waiting (.change c :: moves)) : ∃ g', c.on g = .ok g' ∧ g'.Exact waiting := by
  cases c with
  | setArg o i v => exact hex.setArg (h.slots o i v (by simp)) v
  | replaceAllUses o v => exact hex.replaceAllUses o v
  | remove o =>
    obtain ⟨r, hr, hexact⟩ := hex.remove (h.idle o (by simp [Move.removed]))
    simp only [Change.on, hr, ok_bind]
    cases r with
    | ok g' => exact ⟨g', rfl, hexact g' rfl⟩
    | error refusal => exact ⟨g, rfl, hex⟩

/-- A proper script never breaks off, and it leaves an exact graph. -/
theorem exists_edited (hex : g.Exact waiting) (hs : Script g b moves)
    (hp : Proper g waiting moves) : ∃ g', editAtOnce g b moves = .ok g' ∧ g'.Exact waiting := by
  unfold editAtOnce
  induction moves generalizing g with
  | nil => exact ⟨g, rfl, hex⟩
  | cons m moves ih =>
    rw [List.foldlM_cons]
    cases m with
    | insert ref ops =>
      have hloose : g.Loose ops :=
        ⟨(List.nodup_append.1 hp.nodup).1, fun o ho => hp.detached o (List.mem_append_left _ ho)⟩
      obtain ⟨g', hok, hex'⟩ := hex.insertBefore hloose (hs.listed ref (by simp [Move.points]))
      simp only [Move.atOnce, hok, ok_bind]
      exact ih hex' (hs.insert ((Graph.of_insertBefore hok).1 b)) (hp.insert hok)
    | change c =>
      obtain ⟨g', hok, hex'⟩ := exists_changed hex hp
      simp only [Move.atOnce, hok, ok_bind]
      exact ih hex' (hs.change hok) (hp.change hok)

end
end Editor
end Disguise
