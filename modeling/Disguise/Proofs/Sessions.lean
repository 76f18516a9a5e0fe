import Disguise.Proofs.Exactness
import Disguise.Proofs.Queues

/-!
Editing sessions. A session is a graph with the editors that are open on its blocks; it goes from
one state to the next by single edits. As long as the edits are used as they are meant to be, every
state is exact and no edit breaks off.
-/
namespace Disguise
open Results

namespace Editor
variable {e : Editor} {ops : List OpId}

/-- All ops that wait in an editor. -/
def queuedOps (e : Editor) : List OpId := e.queue.flatMap (·.2)

/-- All insertion points are among the given ops. -/
def Anchored (e : Editor) (ops : List OpId) : Prop :=
  ∀ entry ∈ e.queue, entry.2 ≠ [] → entry.1 ∈ ops

theorem flatMap_ite {ref : OpId} {new : List OpId} (hn : ops.Nodup) (h : new ≠ [] → ref ∈ ops) :
    (ops.flatMap fun o => if o = ref then new else []) = new := by
  have hnone : ∀ l : List OpId, ref ∉ l →
      (l.flatMap fun o => if o = ref then new else []) = [] := by
    intro l hl
    refine List.flatMap_eq_nil_iff.2 fun o ho => if_neg ?_
    rintro rfl
    exact hl ho
  by_cases hnew : new = []
  · simp [hnew]
  · obtain ⟨pre, post, rfl⟩ := List.append_of_mem (h hnew)
    have hsplit := List.nodup_middle.1 hn
    rw [List.nodup_cons, List.mem_append, not_or] at hsplit
    rw [List.flatMap_append, List.flatMap_cons, hnone pre hsplit.1.1, hnone post hsplit.1.2]
    simp

/-- The ops that wait before the ops of a block are all that wait. -/
theorem waiting_perm (hn : ops.Nodup) (h : e.Anchored ops) :
    (ops.flatMap e.waiting).Perm e.queuedOps := by
  obtain ⟨block, queue, pending⟩ := e
  unfold queuedOps
  induction queue with
  | nil => simp [waiting]
  | cons entry queue ih =>
    have hsplit : Editor.waiting ⟨block, entry :: queue, pending⟩ = fun o =>
        (if o = entry.1 then entry.2 else []) ++ Editor.waiting ⟨block, queue, pending⟩ o := by
      funext o
      by_cases ho : o = entry.1
      · simp [waiting, ho]
      · simp [waiting, ho, eq_comm]
    have hfirst : (ops.flatMap fun o => if o = entry.1 then entry.2 else []) = entry.2 :=
      flatMap_ite hn (h entry (by simp))
    have hperm := ih fun entry' hentry => h entry' (List.mem_cons_of_mem _ hentry)
    rw [hsplit]
    refine (List.flatMap_append_perm ops _ _).symm.trans ?_
    rw [hfirst, List.flatMap_cons]
    exact hperm.append_left _

theorem count_merged (hn : ops.Nodup) (h : e.Anchored ops) (o : OpId) :
    (e.merged ops).count o = ops.count o + e.queuedOps.count o := by
  have hperm : (e.merged ops).Perm (e.queuedOps ++ ops) := by
    refine (List.flatMap_append_perm ops e.waiting fun o => [o]).symm.trans ?_
    rw [List.flatMap_singleton']
    exact (waiting_perm hn h).append_right _
  rw [hperm.count_eq, List.count_append, Nat.add_comm]

end Editor

structure Session where
  graph : Graph := {}
  editors : List Editor := []

namespace Session

/-- The ops that wait to be placed in a block. -/
def waiting (s : Session) (b : BlockId) : List OpId :=
  s.editors.flatMap fun e => if e.block = b then e.queuedOps else []

/-- The edits; editors are told apart by the order in which they were opened. -/
inductive Edit where
  | newFunc (f : Func)
  | newModule
  | addFunc (m : ModuleId) (f : FuncId)
  | newParam (name : Bytes) (bits : Int) (func : Option FuncId)
  | addBlock (f : FuncId) (name : Bytes)
  | newOp (code : Opcode) (bits : Int) (args : List (Option Operand))
      (targets : List (Option BlockId))
  | append (b : BlockId) (ops : List OpId)
  | insertBefore (b : BlockId) (ref : OpId) (ops : List OpId)
  | insertAfter (b : BlockId) (ref : OpId) (ops : List OpId)
  | setArg (o : OpId) (i : Nat) (v : Option Operand)
  | replaceAllUses (o : OpId) (v : Option Operand)
  | remove (o : OpId)
  | removeDead (ops : List OpId)
  | edit (b : BlockId)
  | queue (editor : Nat) (ref : OpId) (ops : List OpId)
  | commit (editor : Nat)

def withGraph (s : Session) (g : Graph) : Session := { s with graph := g }

def perform (s : Session) : Edit → Except Violation Session
  | .newFunc f => .ok (s.withGraph (s.graph.newFunc f).1)
  | .newModule => .ok (s.withGraph s.graph.newModule.1)
  | .addFunc m f => .ok (s.withGraph (s.graph.addFunc m f))
  | .newParam name bits func => .ok (s.withGraph (s.graph.newParam name bits func).1)
  | .addBlock f name => .ok (s.withGraph (s.graph.addBlock f name).1)
  | .newOp code bits args targets => .ok (s.withGraph (s.graph.newOp code bits args targets).1)
  | .append b ops => s.withGraph <$> s.graph.append b ops
  | .insertBefore b ref ops => s.withGraph <$> s.graph.insertBefore b ref ops
  | .insertAfter b ref ops => s.withGraph <$> s.graph.insertAfter b ref ops
  | .setArg o i v => s.withGraph <$> s.graph.setArg o i v
  | .replaceAllUses o v => s.withGraph <$> s.graph.replaceAllUses o v
  | .remove o => do
    match ← s.graph.remove o with
    | .ok g => pure (s.withGraph g)
    | .error _ => pure s
  | .removeDead ops => (fun r => s.withGraph r.1) <$> s.graph.removeDead ops
  | .edit b => .ok { s with editors := s.editors ++ [{ block := b }] }
  | .queue k ref ops =>
    match s.editors[k]? with
    | none => .error .absent
    | some e => do
      let (e, g) ← e.insertBefore s.graph ref ops
      pure { graph := g, editors := s.editors.set k e }
  | .commit k =>
    match s.editors[k]? with
    | none => .error .absent
    | some e => do
      let (e, g) ← e.commit s.graph
      pure { graph := g, editors := s.editors.set k e }

/-- What an edit asks for: inserted ops are loose, an insertion point stands in the list of its
block, an operand slot is there, and an op that is to be removed does not wait in an editor. -/
def Allowed (s : Session) : Edit → Prop
  | .append _ ops => s.graph.Loose ops
  | .insertBefore b ref ops | .insertAfter b ref ops =>
    s.graph.Loose ops ∧ ref ∈ (s.graph.block b).ops
  | .setArg o i _ => i < (s.graph.op o).args.length
  | .remove o => ∀ b, o ∉ s.waiting b
  | .removeDead ops => ∀ o ∈ ops, ∀ b, o ∉ s.waiting b
  | .queue k ref ops => ∃ e, s.editors[k]? = some e ∧ s.graph.Loose ops ∧
      ref ∈ (s.graph.block e.block).ops
  | .commit k => k < s.editors.length
  | _ => True

/-- The insertion points of all editors are still where they were. -/
def Anchored (s : Session) : Prop :=
  ∀ e ∈ s.editors, e.Anchored (s.graph.block e.block).ops

instance (s : Session) : Decidable s.Anchored :=
  inferInstanceAs (Decidable (∀ e ∈ s.editors, ∀ entry ∈ e.queue,
    entry.2 ≠ [] → entry.1 ∈ (s.graph.block e.block).ops))

/-- What is true in every state: the graph is exact, with the ops that wait in editors, and each
editor knows how many these are. -/
structure Exact (s : Session) : Prop where
  graph : s.graph.Exact s.waiting
  pending : ∀ e ∈ s.editors, e.pending = e.queuedOps.length

/-- The states that allowed edits lead to, insertion points staying in their blocks. -/
inductive Leads (s : Session) : Session → Prop
  | here : Leads s s
  | step {t u : Session} (before : Leads s t) (e : Edit) (allowed : t.Allowed e)
      (now : t.perform e = .ok u) (anchored : u.Anchored) : Leads s u

variable {s : Session}

theorem count_waiting_set {k : Nat} {e : Editor} (hk : s.editors[k]? = some e)
    (e' : Editor) (hb : e'.block = e.block) (g : Graph) (b : BlockId) (o : OpId) :
    (waiting ⟨g, s.editors.set k e'⟩ b).count o +
        (if e.block = b then e.queuedOps.count o else 0) =
      (s.waiting b).count o + if e.block = b then e'.queuedOps.count o else 0 := by
  obtain ⟨g₀, editors⟩ := s
  unfold waiting
  dsimp only at hk ⊢
  induction editors generalizing k with
  | nil => simp at hk
  | cons d editors ih =>
    cases k with
    | zero =>
      obtain rfl : d = e := by simpa using hk
      simp only [List.set_cons_zero, List.flatMap_cons, List.count_append, hb]
      split
      · omega
      · simp
    | succ k =>
      have hrest := ih (k := k) (by simpa using hk)
      simp only [List.set_cons_succ, List.flatMap_cons, List.count_append]
      omega

theorem Exact.withGraph (h : s.Exact) {g : Graph} (hg : g.Exact s.waiting) :
    (s.withGraph g).Exact :=
  ⟨hg, h.pending⟩

theorem Exact.edit (h : s.Exact) (b : BlockId) :
    Exact { s with editors := s.editors ++ [{ block := b }] } := by
  have hsame : waiting { s with editors := s.editors ++ [{ block := b }] } = s.waiting := by
    funext c
    simp [waiting, Editor.queuedOps]
  refine ⟨?_, ?_⟩
  · rw [hsame]
    exact h.graph
  · intro e he
    rcases List.mem_append.1 he with he | he
    · exact h.pending e he
    · obtain rfl := List.mem_singleton.1 he
      rfl

/-- The other editors are as they were. -/
theorem Exact.set (h : s.Exact) {k : Nat} {e : Editor} {g : Graph}
    (hg : g.Exact (waiting ⟨g, s.editors.set k e⟩)) (he : e.pending = e.queuedOps.length) :
    Exact ⟨g, s.editors.set k e⟩ where
  graph := hg
  pending d hd := by
    rcases List.mem_or_eq_of_mem_set hd with hd | rfl
    · exact h.pending d hd
    · exact he

theorem Exact.queue (h : s.Exact) {k : Nat} {e : Editor} {ref : OpId} {ops : List OpId}
    (hk : s.editors[k]? = some e) (hloose : s.graph.Loose ops)
    (href : ref ∈ (s.graph.block e.block).ops) :
    ∃ s', s.perform (.queue k ref ops) = .ok s' ∧ s'.Exact := by
  obtain ⟨g, hok, -, hg⟩ := h.graph.attach hloose e.block
  have hqueued : (e.queued ref ops).queuedOps = e.queuedOps ++ ops := by
    simp [Editor.queuedOps, Editor.queued]
  refine ⟨⟨g, s.editors.set k (e.queued ref ops)⟩, ?_, h.set (hg.recount fun b o => ?_) ?_⟩
  · simp only [perform, hk, Editor.insertBefore]
    rw [if_neg (by simp [h.graph.block_of_mem href]), hok]
    rfl
  · have hcount := count_waiting_set hk (e.queued ref ops) rfl g b o
    rw [hqueued, List.count_append] at hcount
    by_cases hb : e.block = b
    · simp only [hb, if_true] at hcount ⊢
      rw [List.count_append]
      omega
    · simp only [hb, if_false] at hcount
      rw [if_neg fun heq => hb heq.symm]
      omega
  · have hpending := h.pending e (List.mem_of_getElem? hk)
    rw [hqueued]
    simp [Editor.queued, hpending]

theorem Exact.commit (h : s.Exact) (ha : s.Anchored) {k : Nat} {e : Editor}
    (hk : s.editors[k]? = some e) : ∃ s', s.perform (.commit k) = .ok s' ∧ s'.Exact := by
  have hmem := List.mem_of_getElem? hk
  have hpending := h.pending e hmem
  have hn := h.graph.nodup e.block
  by_cases hzero : e.pending = 0
  · refine ⟨s, ?_, h⟩
    have hset : s.editors.set k e = s.editors := by
      obtain ⟨hlt, hget⟩ := List.getElem?_eq_some_iff.1 hk
      rw [← hget, List.set_getElem_self]
    simp only [perform, hk, Editor.commit, if_pos hzero, ok_bind, hset]
    rfl
  · have hleft : e.pending - ((s.graph.block e.block).ops.flatMap e.waiting).length = 0 := by
      rw [(Editor.waiting_perm hn (ha e hmem)).length_eq, hpending, Int.sub_self]
    refine ⟨⟨e.settle s.graph, s.editors.set k { block := e.block }⟩, ?_, h.set ?_ rfl⟩
    · simp only [perform, hk, Editor.commit, if_neg hzero]
      rw [if_neg (not_not.2 hleft)]
      rfl
    · have hcount := count_waiting_set hk { block := e.block } rfl (e.settle s.graph)
      refine h.graph.relist (fun o => ?_) fun c hc o => ?_
      · have hblock := hcount e.block o
        simp only [if_true, Editor.queuedOps, List.flatMap_nil, List.count_nil,
          Nat.add_zero] at hblock
        rw [Editor.count_merged hn (ha e hmem), Editor.queuedOps]
        omega
      · have hother := hcount c o
        simp only [Ne.symm hc, if_false, Nat.add_zero] at hother
        exact hother

/-- An allowed edit is carried out and leaves an exact state. -/
theorem Exact.perform (h : s.Exact) (ha : s.Anchored) {e : Edit} (hok : s.Allowed e) :
    ∃ s', s.perform e = .ok s' ∧ s'.Exact := by
  have lift : ∀ {r : Except Violation Graph}, (∃ g, r = .ok g ∧ g.Exact s.waiting) →
      ∃ s', s.withGraph <$> r = .ok s' ∧ s'.Exact := by
    rintro r ⟨g, rfl, hg⟩
    exact ⟨s.withGraph g, rfl, h.withGraph hg⟩
  cases e with
  | newFunc f => exact ⟨_, rfl, h.withGraph (h.graph.withFuncs _ _)⟩
  | newModule => exact ⟨_, rfl, h.withGraph (h.graph.withFuncs _ _)⟩
  | addFunc m f => exact ⟨_, rfl, h.withGraph (h.graph.addFunc m f)⟩
  | newParam name bits func => exact ⟨_, rfl, h.withGraph (h.graph.newParam name bits func)⟩
  | addBlock f name =>
    exact ⟨_, rfl, h.withGraph ((h.graph.newBlock f name).withFuncs _ _)⟩
  | newOp code bits args targets =>
    exact ⟨_, rfl, h.withGraph (h.graph.newOp code bits args targets)⟩
  | append b ops => exact lift (h.graph.append hok b)
  | insertBefore b ref ops => exact lift (h.graph.insertBefore hok.1 hok.2)
  | insertAfter b ref ops => exact lift (h.graph.insertAfter hok.1 hok.2)
  | setArg o i v => exact lift (h.graph.setArg hok v)
  | replaceAllUses o v => exact lift (h.graph.replaceAllUses o v)
  | remove o =>
    obtain ⟨r, hr, hg⟩ := h.graph.remove hok
    simp only [Session.perform, hr, ok_bind]
    cases r with
    | error refusal => exact ⟨s, rfl, h⟩
    | ok g => exact ⟨_, rfl, h.withGraph (hg g rfl)⟩
  | removeDead ops =>
    obtain ⟨r, hr, hg⟩ := h.graph.removeDead hok
    exact ⟨s.withGraph r.1, by simp only [Session.perform, hr]; rfl, h.withGraph hg⟩
  | edit b => exact ⟨_, rfl, h.edit b⟩
  | queue k ref ops =>
    obtain ⟨e, hk, hloose, href⟩ := hok
    exact h.queue hk hloose href
  | commit k => exact h.commit ha (List.getElem?_eq_getElem hok)

theorem exact_of_leads {t : Session} (h : s.Exact) (ha : s.Anchored) (hl : s.Leads t) :
    t.Exact ∧ t.Anchored := by
  induction hl with
  | here => exact ⟨h, ha⟩
  | step _ e allowed now anchored ih =>
    obtain ⟨u', hok, hexact⟩ := ih.1.perform ih.2 allowed
    rw [now] at hok
    cases hok
    exact ⟨hexact, anchored⟩

end Session
end Disguise
