import Disguise.Proofs.Chains

/-!
Replacement chains leave no loose ends. Whatever is chosen, every rule builds a chain that reads
both operands and in which every step but the last is read by another step; with complement and
negation written out, all its steps have codes that rules apply to in turn.
-/
namespace Disguise.Chain
open Word

/-- A step reads the operand. -/
def ReadIn (steps : List Step) (t : Term) : Prop := ∃ s ∈ steps, t ∈ s.args

theorem ReadIn.append_left {steps : List Step} {t : Term} (h : ReadIn steps t) (more : List Step) :
    ReadIn (steps ++ more) t := by
  obtain ⟨s, hs, ht⟩ := h
  exact ⟨s, List.mem_append_left _ hs, ht⟩

theorem ReadIn.append_right {steps : List Step} {t : Term} (h : ReadIn steps t)
    (before : List Step) : ReadIn (before ++ steps) t := by
  obtain ⟨s, hs, ht⟩ := h
  exact ⟨s, List.mem_append_right _ hs, ht⟩

/-- A chain without loose ends. -/
structure Woven (expand : Bool) (c : Chain) : Prop where
  left : ReadIn c.steps .left
  right : ReadIn c.steps .right
  inner : ∀ i, i + 1 < c.steps.length → ReadIn c.steps (.step i)
  plain : expand → ∀ s ∈ c.steps, s.code ∈ Rule.replaceable

/-- How far the steps `new`, which follow `start` others, have been woven: the operands in `spent`
are read by them, and the result of each is read by another one or still to hand. -/
structure Weft (expand : Bool) (start : Nat) (spent made : List Term) (new : List Step) : Prop where
  spent : ∀ t ∈ spent, ReadIn new t
  made : ∀ i, start ≤ i → i < start + new.length → ReadIn new (.step i) ∨ .step i ∈ made
  plain : expand → ∀ s ∈ new, s.code ∈ Rule.replaceable

namespace Weft
variable {expand : Bool} {start : Nat} {spent made wanted made' : List Term} {new : List Step}

theorem nil (expand : Bool) (start : Nat) : Weft expand start [] [] [] :=
  ⟨by simp, fun i h1 h2 => by simp only [List.length_nil] at h2; omega, by simp⟩

/-- Steps that have been woven on their own go on from others. -/
theorem append {reads : List Term} {more : List Step} (h : Weft expand start spent made new)
    (h' : Weft expand (start + new.length) reads made' more) :
    Weft expand start (reads ++ spent) (made' ++ made) (new ++ more) := by
  refine ⟨?_, ?_, ?_⟩
  · intro u hu
    rcases List.mem_append.1 hu with hu | hu
    · exact (h'.spent u hu).append_right new
    · exact (h.spent u hu).append_left more
  · intro j hj hlt
    rw [List.length_append] at hlt
    by_cases hold : j < start + new.length
    · rcases h.made j hj hold with h | h
      · exact .inl (h.append_left more)
      · exact .inr (List.mem_append_right _ h)
    · rcases h'.made j (by omega) (by omega) with h | h
      · exact .inl (h.append_right new)
      · exact .inr (List.mem_append_left _ h)
  · intro he u hu
    exact (List.mem_append.1 hu).elim (h.plain he u) (h'.plain he u)

/-- What has been read is not to hand any more. -/
theorem mono (h : Weft expand start spent (made' ++ made) new)
    (hall : ∀ t ∈ wanted ++ made, t ∈ spent) : Weft expand start wanted made' new := by
  refine ⟨fun u hu => h.spent u (hall u (List.mem_append_left _ hu)), fun j hj hlt => ?_, h.plain⟩
  rcases h.made j hj hlt with hread | hmade
  · exact .inl hread
  · rcases List.mem_append.1 hmade with hmade | hmade
    · exact .inr hmade
    · exact .inl (h.spent _ (hall _ (List.mem_append_right _ hmade)))

end Weft

/-- A building program goes on from a weft and ends with a step whose result alone is not read; the
operands in `wanted` are. -/
def Weaves (w : Nat) (expand : Bool) (wanted spent made : List Term) (p : Build Term) : Prop :=
  ∀ base new, Weft expand base.length spent made new →
    Always ((p.run ⟨w, expand⟩).run (base ++ new)) fun r => ∃ new' i, r = (.step i, base ++ new') ∧
      i + 1 = base.length + new'.length ∧ Weft expand base.length wanted [.step i] new'

/-- A building program of its own that reads the given operands. -/
abbrev Emits (w : Nat) (expand : Bool) (reads : List Term) (p : Build Term) : Prop :=
  Weaves w expand reads [] [] p

namespace Weaves
variable {w : Nat} {expand : Bool} {wanted spent made reads : List Term} {s t : Term}

/-- A program of its own may run behind any steps. -/
theorem behind {p : Build Term} (hp : Emits w expand reads p) (base new : List Step) :
    Always ((p.run ⟨w, expand⟩).run (base ++ new)) fun r => ∃ more i,
      r = (.step i, base ++ (new ++ more)) ∧ i + 1 = base.length + (new ++ more).length ∧
        Weft expand (base.length + new.length) reads [.step i] more := by
  have hrun := hp (base ++ new) [] (.nil expand _)
  rw [List.append_nil] at hrun
  refine hrun.mono ?_
  rintro _ ⟨more, i, rfl, hi, hmore⟩
  rw [List.length_append] at hi hmore
  exact ⟨more, i, by rw [List.append_assoc], by rw [List.length_append]; omega, hmore⟩

theorem bind {p : Build Term} {k : Term → Build Term} (hp : Emits w expand reads p)
    (hk : ∀ t, Weaves w expand wanted (reads ++ spent) (t :: made) (k t)) :
    Weaves w expand wanted spent made (p >>= k) := by
  intro base new hnew
  change Always (((p.run _).run (base ++ new)) >>= fun r => ((k r.1).run _).run r.2) _
  refine (behind hp base new).bind ?_
  rintro _ ⟨more, i, rfl, -, hmore⟩
  exact hk (.step i) base (new ++ more) (hnew.append hmore)

/-- The last part reads what is still to hand. -/
theorem last {p : Build Term} (hp : Emits w expand reads p)
    (hall : ∀ t ∈ wanted ++ made, t ∈ reads ++ spent) :
    Weaves w expand wanted spent made p := by
  intro base new hnew
  refine (behind hp base new).mono ?_
  rintro _ ⟨more, i, rfl, hi, hmore⟩
  exact ⟨new ++ more, i, rfl, hi, (hnew.append hmore).mono hall⟩

/-- A choice that decides between programs. -/
theorem choose {k : Nat → Build Term} (hk : ∀ n, Weaves w expand wanted spent made (k n)) :
    Weaves w expand wanted spent made ((liftM (Choice.below 2) : Build Nat) >>= k) := by
  intro base new hnew
  change Always ((Choice.below 2 >>= fun n => Pure.pure (n, base ++ new)) >>=
    fun r : Nat × List Step => ((k r.1).run _).run r.2) _
  refine Always.bind (P := fun r => r.2 = base ++ new) ?_ ?_
  · exact (Always.below (by decide)).bind fun n _ => .pure rfl
  · rintro ⟨n, _⟩ rfl
    exact hk n base new hnew

theorem congr {p q : Build Term} (h : p.run ⟨w, expand⟩ = q.run ⟨w, expand⟩)
    (hq : Weaves w expand wanted spent made q) : Weaves w expand wanted spent made p := by
  intro base new hnew
  rw [h]
  exact hq base new hnew

theorem emit {code : Opcode} {args : List Term} (hcode : expand → code ∈ Rule.replaceable)
    (hreads : ∀ t ∈ reads, t ∈ args) : Emits w expand reads (Chain.emit code args) := by
  intro base new hnew
  refine Always.pure ⟨new ++ [⟨code, args⟩], base.length + new.length, ?_, ?_, ?_, ?_, ?_⟩
  · simp
  · simp
    omega
  · exact fun u hu => ReadIn.append_right ⟨_, List.mem_singleton_self _, hreads u hu⟩ new
  · intro j hj hlt
    by_cases hold : j < base.length + new.length
    · exact (hnew.made j hj hold).elim (fun h => .inl (h.append_left _)) fun h => by cases h
    · rw [List.length_append, List.length_singleton] at hlt
      have hlast : j = base.length + new.length := by omega
      exact .inr (by rw [hlast]; exact List.mem_singleton_self _)
  · intro he u hu
    rcases List.mem_append.1 hu with hu | hu
    · exact hnew.plain he u hu
    · rw [List.mem_singleton.1 hu]
      exact hcode he

theorem op {code : Opcode} (hc : Rule.replaceable.contains code) :
    Emits w expand [s, t] (Chain.op code s t) :=
  emit (fun _ => List.contains_iff_mem.1 hc) fun _ h => h

section
variable (hw : goodWidth (w : Int))
include hw

/-- A constant is neither read nor a result of a step. -/
theorem const (v : UInt64) {k : Term → Build Term}
    (hk : ∀ c, Weaves w expand wanted spent made (k (.const c))) :
    Weaves w expand wanted spent made (Chain.const v >>= k) := by
  intro base new hnew
  change Always (((Chain.const v).run _).run (base ++ new) >>= fun r => ((k r.1).run _).run r.2) _
  rw [Gives.run_const hw]
  exact hk _ base new hnew

theorem mask {k : Term → Build Term}
    (hk : ∀ c, Weaves w expand wanted spent made (k (.const c))) :
    Weaves w expand wanted spent made (Chain.mask >>= k) := by
  intro base new hnew
  change Always (((Choice.value (w : Int) >>= fun v => Pure.pure (v, base ++ new)) >>=
    fun r : UInt64 × List Step => ((Chain.const r.1).run _).run r.2) >>=
      fun r : Term × List Step => ((k r.1).run _).run r.2) _
  refine Always.bind (P := fun r => ∃ c, r = (.const c, base ++ new)) ?_ ?_
  · refine Always.bind (P := fun r => r.2 = base ++ new) ?_ ?_
    · exact (Always.value hw).bind fun v _ => .pure rfl
    · rintro ⟨v, _⟩ rfl
      rw [Gives.run_const hw]
      exact .pure ⟨_, rfl⟩
  · rintro _ ⟨c, rfl⟩
    exact hk c base new hnew

theorem not : Emits w expand [s] (Chain.not s) := by
  cases expand with
  | false => exact congr (q := Chain.emit .not [s]) rfl (emit (by simp) fun _ h => h)
  | true =>
    have hrun : (Chain.not s).run ⟨w, true⟩ =
        (liftM (Word.mask (w : Int)) : StateT (List Step) Choice UInt64) >>= fun ones =>
          (Chain.const ones >>= fun c => Chain.op .xor s c).run ⟨w, true⟩ := rfl
    have hmask : Word.mask (w : Int) = .ok (low 0xFFFFFFFFFFFFFFFF w) := truncate_of_good hw _
    rw [hmask] at hrun
    refine congr (q := Chain.const _ >>= fun c => Chain.op .xor s c) hrun ?_
    exact const hw _ fun c => emit (fun _ => by decide) (by simp)

theorem neg : Emits w expand [s] (Chain.neg s) := by
  cases expand with
  | false => exact congr (q := Chain.emit .neg [s]) rfl (emit (by simp) fun _ h => h)
  | true =>
    refine congr (q := Chain.const 0 >>= fun c => Chain.op .sub c s) rfl ?_
    exact const hw _ fun c => emit (fun _ => by decide) (by simp)

theorem nor : Emits w expand [s, t] (Chain.nor s t) := by
  refine choose fun n => ?_
  split
  · refine bind (op rfl) fun both => ?_
    exact last (not hw) (by simp)
  · refine bind (not hw) fun notFst => ?_
    refine bind (not hw) fun notSnd => ?_
    exact last (op rfl) (by simp)

theorem nand : Emits w expand [s, t] (Chain.nand s t) := by
  refine choose fun n => ?_
  split
  · refine bind (op rfl) fun both => ?_
    exact last (not hw) (by simp)
  · refine bind (not hw) fun notFst => ?_
    refine bind (not hw) fun notSnd => ?_
    exact last (op rfl) (by simp)

theorem addNeg : Emits w expand [.left, .right] (Rule.addNeg.build .left .right) := by
  refine bind (neg hw) fun ny => ?_
  exact last (op rfl) (by simp)

theorem addDoubleNeg : Emits w expand [.left, .right] (Rule.addDoubleNeg.build .left .right) := by
  refine bind (neg hw) fun nx => ?_
  refine bind (neg hw) fun ny => ?_
  refine bind (op rfl) fun sum => ?_
  exact last (neg hw) (by simp)

theorem addRand : Emits w expand [.left, .right] (Rule.addRand.build .left .right) := by
  refine mask hw fun _ => ?_
  refine bind (op rfl) fun s => ?_
  refine bind (op rfl) fun s' => ?_
  exact last (op rfl) (by simp)

theorem addRand2 : Emits w expand [.left, .right] (Rule.addRand2.build .left .right) := by
  refine mask hw fun _ => ?_
  refine bind (op rfl) fun s => ?_
  refine bind (op rfl) fun s' => ?_
  exact last (op rfl) (by simp)

theorem addSubstitution :
    Emits w expand [.left, .right] (Rule.addSubstitution.build .left .right) := by
  refine bind (not hw) fun ny => ?_
  refine const hw 1 fun one => ?_
  refine bind (neg hw) fun minusOne => ?_
  refine bind (op rfl) fun s => ?_
  exact last (op rfl) (by simp)

omit hw in
theorem addSubstitution2 :
    Emits w expand [.left, .right] (Rule.addSubstitution2.build .left .right) := by
  refine bind (op rfl) fun both => ?_
  refine bind (op rfl) fun any => ?_
  exact last (op rfl) (by simp)

theorem addSubstitution3 :
    Emits w expand [.left, .right] (Rule.addSubstitution3.build .left .right) := by
  refine bind (op rfl) fun both => ?_
  refine const hw 2 fun two => ?_
  refine bind (op rfl) fun carry => ?_
  refine bind (op rfl) fun differ => ?_
  exact last (op rfl) (by simp)

theorem subNeg : Emits w expand [.left, .right] (Rule.subNeg.build .left .right) := by
  refine bind (neg hw) fun ny => ?_
  exact last (op rfl) (by simp)

theorem subRand : Emits w expand [.left, .right] (Rule.subRand.build .left .right) := by
  refine mask hw fun _ => ?_
  refine bind (op rfl) fun s => ?_
  refine bind (op rfl) fun s' => ?_
  exact last (op rfl) (by simp)

theorem subRand2 : Emits w expand [.left, .right] (Rule.subRand2.build .left .right) := by
  refine mask hw fun _ => ?_
  refine bind (op rfl) fun s => ?_
  refine bind (op rfl) fun s' => ?_
  exact last (op rfl) (by simp)

theorem subSubstitution :
    Emits w expand [.left, .right] (Rule.subSubstitution.build .left .right) := by
  refine bind (not hw) fun nx => ?_
  refine bind (op rfl) fun onlyY => ?_
  refine bind (not hw) fun ny => ?_
  refine bind (op rfl) fun onlyX => ?_
  exact last (op rfl) (by simp)

theorem subSubstitution2 :
    Emits w expand [.left, .right] (Rule.subSubstitution2.build .left .right) := by
  refine bind (op rfl) fun differ => ?_
  refine bind (not hw) fun ny => ?_
  refine bind (op rfl) fun onlyX => ?_
  refine const hw 2 fun two => ?_
  refine bind (op rfl) fun twice => ?_
  exact last (op rfl) (by simp)

theorem subSubstitution3 :
    Emits w expand [.left, .right] (Rule.subSubstitution3.build .left .right) := by
  refine bind (not hw) fun ny => ?_
  refine bind (op rfl) fun s => ?_
  refine const hw 1 fun one => ?_
  exact last (op rfl) (by simp)

theorem mulSubstitution :
    Emits w expand [.left, .right] (Rule.mulSubstitution.build .left .right) := by
  refine bind (not hw) fun nx => ?_
  refine bind (op rfl) fun onlyY => ?_
  refine bind (not hw) fun ny => ?_
  refine bind (op rfl) fun onlyX => ?_
  refine bind (op rfl) fun cross => ?_
  refine bind (op rfl) fun both => ?_
  refine bind (op rfl) fun any => ?_
  refine bind (op rfl) fun main => ?_
  exact last (op rfl) (by simp)

theorem mulSubstitution2 :
    Emits w expand [.left, .right] (Rule.mulSubstitution2.build .left .right) := by
  refine bind (not hw) fun ny => ?_
  refine bind (op rfl) fun onlyX => ?_
  refine bind (op rfl) fun rest => ?_
  refine bind (not hw) fun onlyY => ?_
  refine bind (op rfl) fun cross => ?_
  refine bind (op rfl) fun both => ?_
  refine bind (op rfl) fun any => ?_
  refine bind (op rfl) fun main => ?_
  exact last (op rfl) (by simp)

theorem andSubstitution :
    Emits w expand [.left, .right] (Rule.andSubstitution.build .left .right) := by
  refine bind (not hw) fun ny => ?_
  refine bind (op rfl) fun same => ?_
  exact last (op rfl) (by simp)

theorem andSubstitutionRand :
    Emits w expand [.left, .right] (Rule.andSubstitutionRand.build .left .right) := by
  refine mask hw fun _ => ?_
  refine bind (not hw) fun nx => ?_
  refine bind (not hw) fun ny => ?_
  refine bind (not hw) fun nr => ?_
  refine bind (op rfl) fun any => ?_
  refine bind (op rfl) fun ones => ?_
  refine bind (not hw) fun both => ?_
  exact last (op rfl) (by simp)

theorem andSubstitution2 :
    Emits w expand [.left, .right] (Rule.andSubstitution2.build .left .right) := by
  refine bind (op rfl) fun differ => ?_
  refine bind (not hw) fun same => ?_
  refine bind (op rfl) fun any => ?_
  exact last (op rfl) (by simp)

theorem andSubstitution3 :
    Emits w expand [.left, .right] (Rule.andSubstitution3.build .left .right) := by
  refine const hw 1 fun one => ?_
  refine bind (op rfl) fun next => ?_
  refine bind (not hw) fun nx => ?_
  refine bind (op rfl) fun s => ?_
  exact last (op rfl) (by simp)

theorem andNor : Emits w expand [.left, .right] (Rule.andNor.build .left .right) := by
  refine bind (nor hw) fun nx => ?_
  refine bind (nor hw) fun ny => ?_
  exact last (nor hw) (by simp)

theorem andNand : Emits w expand [.left, .right] (Rule.andNand.build .left .right) := by
  refine bind (nand hw) fun n => ?_
  refine bind (nand hw) fun n' => ?_
  exact last (nand hw) (by simp)

omit hw in
theorem orSubstitution :
    Emits w expand [.left, .right] (Rule.orSubstitution.build .left .right) := by
  refine bind (op rfl) fun both => ?_
  refine bind (op rfl) fun differ => ?_
  exact last (op rfl) (by simp)

theorem orSubstitutionRand :
    Emits w expand [.left, .right] (Rule.orSubstitutionRand.build .left .right) := by
  refine mask hw fun _ => ?_
  refine bind (not hw) fun nx => ?_
  refine bind (not hw) fun ny => ?_
  refine bind (not hw) fun nr => ?_
  refine bind (op rfl) fun onlyR => ?_
  refine bind (op rfl) fun onlyX => ?_
  refine bind (op rfl) fun onlyR' => ?_
  refine bind (op rfl) fun onlyY => ?_
  refine bind (op rfl) fun maskedX => ?_
  refine bind (op rfl) fun maskedY => ?_
  refine bind (op rfl) fun differ => ?_
  refine bind (op rfl) fun any => ?_
  refine bind (not hw) fun both => ?_
  refine bind (op rfl) fun ones => ?_
  refine bind (op rfl) fun both' => ?_
  exact last (op rfl) (by simp)

theorem orSubstitution2 :
    Emits w expand [.left, .right] (Rule.orSubstitution2.build .left .right) := by
  refine bind (not hw) fun ny => ?_
  refine bind (op rfl) fun onlyX => ?_
  refine bind (op rfl) fun differ => ?_
  refine bind (op rfl) fun s => ?_
  exact last (op rfl) (by simp)

theorem orSubstitution3 :
    Emits w expand [.left, .right] (Rule.orSubstitution3.build .left .right) := by
  refine bind (op rfl) fun both => ?_
  refine bind (not hw) fun notBoth => ?_
  refine bind (op rfl) fun s => ?_
  refine const hw 1 fun one => ?_
  refine bind (op rfl) fun s' => ?_
  exact last (op rfl) (by simp)

theorem orNor : Emits w expand [.left, .right] (Rule.orNor.build .left .right) := by
  refine bind (nor hw) fun n => ?_
  refine bind (nor hw) fun n' => ?_
  exact last (nor hw) (by simp)

theorem orNand : Emits w expand [.left, .right] (Rule.orNand.build .left .right) := by
  refine bind (nand hw) fun nx => ?_
  refine bind (nand hw) fun ny => ?_
  exact last (nand hw) (by simp)

theorem xorSubstitution :
    Emits w expand [.left, .right] (Rule.xorSubstitution.build .left .right) := by
  refine bind (not hw) fun nx => ?_
  refine bind (op rfl) fun onlyY => ?_
  refine bind (not hw) fun ny => ?_
  refine bind (op rfl) fun onlyX => ?_
  exact last (op rfl) (by simp)

theorem xorSubstitutionRand :
    Emits w expand [.left, .right] (Rule.xorSubstitutionRand.build .left .right) := by
  refine mask hw fun _ => ?_
  refine bind (not hw) fun nx => ?_
  refine bind (op rfl) fun onlyR => ?_
  refine bind (not hw) fun nr => ?_
  refine bind (op rfl) fun onlyX => ?_
  refine bind (not hw) fun ny => ?_
  refine bind (op rfl) fun onlyR' => ?_
  refine bind (op rfl) fun onlyY => ?_
  refine bind (op rfl) fun maskedX => ?_
  refine bind (op rfl) fun maskedY => ?_
  exact last (op rfl) (by simp)

theorem xorSubstitution2 :
    Emits w expand [.left, .right] (Rule.xorSubstitution2.build .left .right) := by
  refine const hw 2 fun two => ?_
  refine bind (op rfl) fun both => ?_
  refine bind (op rfl) fun twice => ?_
  refine bind (op rfl) fun sum => ?_
  exact last (op rfl) (by simp)

theorem xorSubstitution3 :
    Emits w expand [.left, .right] (Rule.xorSubstitution3.build .left .right) := by
  refine bind (op rfl) fun differ => ?_
  refine bind (not hw) fun same => ?_
  refine bind (op rfl) fun both => ?_
  refine const hw 2 fun two => ?_
  refine bind (op rfl) fun twice => ?_
  refine bind (op rfl) fun s => ?_
  exact last (op rfl) (by simp)

theorem xorNor : Emits w expand [.left, .right] (Rule.xorNor.build .left .right) := by
  refine bind (nor hw) fun nx => ?_
  refine bind (nor hw) fun ny => ?_
  refine bind (nor hw) fun both => ?_
  refine bind (nor hw) fun neither => ?_
  exact last (nor hw) (by simp)

theorem xorNand : Emits w expand [.left, .right] (Rule.xorNand.build .left .right) := by
  refine bind (nand hw) fun nx => ?_
  refine bind (nand hw) fun notOnlyY => ?_
  refine bind (nand hw) fun ny => ?_
  refine bind (nand hw) fun notOnlyX => ?_
  exact last (nand hw) (by simp)

/-- Every rule makes a program that reads both operands. -/
theorem of_table (expand : Bool) {code : Opcode} {rule : Rule} (h : rule ∈ Rule.table code) :
    Emits w expand [.left, .right] (rule.build .left .right) := by
  cases code with
  | add =>
    simp only [Rule.table, List.mem_cons, List.not_mem_nil, or_false] at h
    rcases h with rfl | rfl | rfl | rfl | rfl | rfl | rfl
    · exact addNeg hw
    · exact addDoubleNeg hw
    · exact addRand hw
    · exact addRand2 hw
    · exact addSubstitution hw
    · exact addSubstitution2
    · exact addSubstitution3 hw
  | sub =>
    simp only [Rule.table, List.mem_cons, List.not_mem_nil, or_false] at h
    rcases h with rfl | rfl | rfl | rfl | rfl | rfl
    · exact subNeg hw
    · exact subRand hw
    · exact subRand2 hw
    · exact subSubstitution hw
    · exact subSubstitution2 hw
    · exact subSubstitution3 hw
  | mul =>
    simp only [Rule.table, List.mem_cons, List.not_mem_nil, or_false] at h
    rcases h with rfl | rfl
    · exact mulSubstitution hw
    · exact mulSubstitution2 hw
  | and =>
    simp only [Rule.table, List.mem_cons, List.not_mem_nil, or_false] at h
    rcases h with rfl | rfl | rfl | rfl | rfl | rfl
    · exact andSubstitution hw
    · exact andSubstitutionRand hw
    · exact andSubstitution2 hw
    · exact andSubstitution3 hw
    · exact andNor hw
    · exact andNand hw
  | or =>
    simp only [Rule.table, List.mem_cons, List.not_mem_nil, or_false] at h
    rcases h with rfl | rfl | rfl | rfl | rfl | rfl
    · exact orSubstitution
    · exact orSubstitutionRand hw
    · exact orSubstitution2 hw
    · exact orSubstitution3 hw
    · exact orNor hw
    · exact orNand hw
  | xor =>
    simp only [Rule.table, List.mem_cons, List.not_mem_nil, or_false] at h
    rcases h with rfl | rfl | rfl | rfl | rfl | rfl
    · exact xorSubstitution hw
    · exact xorSubstitutionRand hw
    · exact xorSubstitution2 hw
    · exact xorSubstitution3 hw
    · exact xorNor hw
    · exact xorNand hw
  | _ => cases h

end

end Weaves

/-- A rule of the catalog makes a chain without loose ends. -/
theorem always_woven {w : Nat} (hw : goodWidth (w : Int)) (expand : Bool) {code : Opcode}
    {rule : Rule} (h : rule ∈ Rule.table code) :
    Always (Chain.of rule.build ⟨w, expand⟩) (Woven expand) := by
  refine (Weaves.of_table hw expand h [] [] ⟨by simp, by simp, by simp⟩).bind ?_
  rintro _ ⟨steps, i, rfl, hi, hweft⟩
  rw [List.nil_append, List.length_nil, Nat.zero_add] at *
  refine .pure ⟨hweft.spent _ (by simp), hweft.spent _ (by simp), ?_, hweft.plain⟩
  intro j hj
  dsimp only at hj
  rcases hweft.made j (Nat.zero_le _) (by omega) with hread | hlast
  · exact hread
  · cases List.mem_singleton.1 hlast
    omega

end Disguise.Chain
