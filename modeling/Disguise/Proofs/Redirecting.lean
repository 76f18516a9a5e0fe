import Disguise.Proofs.Visits

/-!
Turning the users of an op to another value. The users are visited one after the other, and each
visit takes its user off the record; in whatever order they come, all of them are visited, and the
graph that is left is the same.
-/
namespace Disguise
open Results

namespace Graph
variable {g g' x y : Graph} {o user : OpId} {v old : Option Operand}

/-- Visits users of an op in the given order and turns them to `v`. -/
def redirectAll (g : Graph) (o : OpId) (v : Option Operand) (order : List OpId) :
    Except Violation Graph :=
  order.foldlM (fun g user => g.redirect o v user) g

/-- Each slot of an attached op that held `o` holds `v`, and the records tell so; all else is as it
was. -/
structure Turned (g g' : Graph) (o : OpId) (v : Option Operand) : Prop where
  op : ∀ u, (g'.op u).bare = { (g.op u).bare with
    args := if (g.op u).block.isSome then (g.op u).args.map (turn o v) else (g.op u).args }
  param : ∀ p, (g'.param p).bare = (g.param p).bare
  blocks : g'.blocks = g.blocks
  funcs : g'.funcs = g.funcs
  modules : g'.modules = g.modules
  given : (g'.op o).uses = .empty
  taken : ∀ w, v = some w → w.Tracked → ∀ u,
    g'.recorded w u = g.recorded w u + g.recorded (.result o) u
  other : ∀ w, w ≠ .result o → v ≠ some w → ∀ u, g'.recorded w u = g.recorded w u

theorem count_map_turn {w : Operand} (hw : w ≠ .result o) (args : List (Option Operand)) :
    (args.map (turn o v)).count (some w) =
      args.count (some w) + if v = some w then args.count (some (.result o)) else 0 := by
  induction args with
  | nil => simp
  | cons a args ih =>
    rw [List.map_cons, List.count_cons, ih, List.count_cons, List.count_cons, turn]
    by_cases ha : a = some (.result o)
    · by_cases hvw : v = some w
      · simp [ha, hvw, hw.symm, Nat.add_assoc]
      · simp [ha, hvw, hw.symm]
    · by_cases hvw : v = some w
      · simp [ha, hvw]
        omega
      · simp [ha, hvw]

theorem count_map_turn_self (hv : v ≠ some (.result o)) (args : List (Option Operand)) :
    (args.map (turn o v)).count (some (.result o)) = 0 := by
  rw [List.count_eq_zero, List.mem_map]
  rintro ⟨a, -, ha⟩
  unfold turn at ha
  split at ha
  · exact hv ha
  · exact ‹a ≠ _› ha

theorem Consistent.turned (h : g.Consistent) (hv : v ≠ some (.result o))
    (hr : g.Retuned g' fun u =>
      if (g.op u).block.isSome then (g.op u).args.map (turn o v) else (g.op u).args) :
    g.Turned g' o v where
  op := hr.op
  param := hr.param
  blocks := hr.blocks
  funcs := hr.funcs
  modules := hr.modules
  given := UseSet.eq_of_count fun u => by
    have hbal := hr.balance (.result o) trivial u
    have huses := h (.result o) trivial u
    change g'.recorded (.result o) u = 0
    split at hbal
    · rw [count_map_turn_self hv] at hbal
      rw [if_pos ‹_›] at huses
      omega
    · rw [if_neg ‹_›] at huses
      rw [slots] at hbal
      omega
  taken w hw htracked u := by
    have hbal := hr.balance w htracked u
    have huses := h (.result o) trivial u
    have hne : w ≠ .result o := fun heq => hv (heq ▸ hw)
    split at hbal
    · rw [count_map_turn hne, if_pos hw, slots] at hbal
      rw [if_pos ‹_›, slots] at huses
      omega
    · rw [if_neg ‹_›] at huses
      rw [slots] at hbal
      omega
  other w hne hw u := by
    have of_balance : w.Tracked → g'.recorded w u = g.recorded w u := by
      intro htracked
      have hbal := hr.balance w htracked u
      split at hbal
      · rw [count_map_turn hne, if_neg hw, slots] at hbal
        omega
      · rw [slots] at hbal
        omega
    cases w with
    | const c => rfl
    | param p => exact of_balance trivial
    | result d => exact of_balance trivial

/-- Graphs that are retuned to the same operands differ at most in the length of their tables. -/
theorem Retuned.eq {args : OpId → List (Option Operand)} (h : g.Retuned x args)
    (h' : g.Retuned y args) (hops : x.ops.size = y.ops.size)
    (hparams : x.params.size = y.params.size) : x = y := by
  have hrec : ∀ w, w.Tracked → ∀ u, x.recorded w u = y.recorded w u := by
    intro w hw u
    have hx := h.balance w hw u
    have hy := h'.balance w hw u
    omega
  have hops : x.ops = y.ops := Table.eq_of_get hops fun i _ =>
    Op.eq_of_bare ((h.op ⟨i⟩).trans (h'.op ⟨i⟩).symm) (hrec (.result ⟨i⟩) trivial)
  have hparams : x.params = y.params := Table.eq_of_get hparams fun i _ =>
    Param.eq_of_bare ((h.param ⟨i⟩).trans (h'.param ⟨i⟩).symm) (hrec (.param ⟨i⟩) trivial)
  exact eq_of_tables hops hparams (h.blocks.trans h'.blocks.symm) (h.funcs.trans h'.funcs.symm)
    (h.modules.trans h'.modules.symm)

/-- How far the tables of ops and of params reach. -/
def reach (g : Graph) : Nat × Nat := (g.ops.size, g.params.size)

/-- Tables that reach as far as `v`. -/
def upTo (v : Option Operand) (r : Nat × Nat) : Nat × Nat :=
  match v with
  | some (.result d) => (max r.1 (d.idx + 1), r.2)
  | some (.param p) => (r.1, max r.2 (p.idx + 1))
  | _ => r

theorem upTo_upTo (v : Option Operand) (r : Nat × Nat) : upTo v (upTo v r) = upTo v r := by
  cases v with
  | none => rfl
  | some w => cases w <;> simp [upTo]

theorem reach_addUse (g : Graph) (v : Option Operand) (user : OpId) :
    (g.addUse v user).reach = upTo v g.reach := by
  cases v with
  | none => rfl
  | some w =>
    cases w with
    | const c => rfl
    | param p => simp [addUse, upTo, reach, modifyParam, Table.size_modify]
    | result d => simp [addUse, upTo, reach, modifyOp, Table.size_modify]

theorem reach_modifyOp {f : Op → Op} (ho : o.idx < g.ops.size) :
    (g.modifyOp o f).reach = g.reach := by
  simp only [reach, modifyOp, Table.size_modify_of_lt ho]

/-- A record that is withdrawn belongs to a value that is there. -/
theorem reach_removeUse (h : g.removeUse old user = .ok g') : g'.reach = g.reach := by
  unfold removeUse at h
  split at h
  · rename_i d
    obtain ⟨hcount, h⟩ := ite_error_eq_ok.1 h
    obtain rfl := Except.ok.inj h
    refine reach_modifyOp (Table.lt_size_of_ne fun heq => hcount ?_)
    rw [op, heq]
    rfl
  · rename_i p
    obtain ⟨hcount, h⟩ := ite_error_eq_ok.1 h
    obtain rfl := Except.ok.inj h
    have hp : p.idx < g.params.size := Table.lt_size_of_ne fun heq => hcount (by
      rw [param, heq]
      rfl)
    simp only [reach, modifyParam, Table.size_modify_of_lt hp]
  · obtain rfl := Except.ok.inj h
    rfl

theorem upTo_fst_le (v : Option Operand) (r : Nat × Nat) : r.1 ≤ (upTo v r).1 := by
  cases v with
  | none => exact Nat.le_refl _
  | some w => cases w <;> simp [upTo]

theorem reach_setArg {i : Nat} (hb : (g.op user).block.isSome) (h : g.setArg user i v = .ok g') :
    g'.reach = upTo v g.reach := by
  obtain ⟨b, hb⟩ := Option.isSome_iff_exists.1 hb
  unfold setArg at h
  dsimp only at h
  split at h
  · cases h
  · rw [hb, Option.isSome_some, if_pos rfl, map_bind, bind_eq_ok] at h
    obtain ⟨g₁, h₁, h⟩ := h
    obtain rfl := pure_eq_ok.1 h
    have hreach : (g₁.addUse v user).reach = upTo v g.reach := by
      rw [reach_addUse, reach_removeUse h₁]
    rw [reach_modifyOp, hreach]
    have hle := upTo_fst_le v g.reach
    rw [← hreach] at hle
    exact Nat.lt_of_lt_of_le (lt_size_of_block hb) hle

/-- Either nothing is turned or the tables reach as far as the value that is put in. -/
theorem reach_redirectFrom {n i : Nat} (hb : (g.op user).block.isSome)
    (h : redirectFrom o v user n i g = .ok g') : g' = g ∨ g'.reach = upTo v g.reach := by
  induction n generalizing g i with
  | zero => exact .inl (Except.ok.inj h).symm
  | succ n ih =>
    unfold redirectFrom at h
    split at h
    · obtain ⟨g₁, h₁, h⟩ := bind_eq_ok.1 h
      have hreach := reach_setArg hb h₁
      rcases ih ((SamePlaces.of_setArg h₁).owner user ▸ hb) h with rfl | hrest
      · exact .inr hreach
      · exact .inr (by rw [hrest, hreach, upTo_upTo])
    · exact ih hb h

theorem reach_redirectAll {order : List OpId} (hb : ∀ u ∈ order, (g.op u).block.isSome)
    (h : g.redirectAll o v order = .ok g') : g' = g ∨ g'.reach = upTo v g.reach := by
  refine (foldlM_keeps (P := fun x => SamePlaces g x ∧ (x = g ∨ x.reach = upTo v g.reach))
    ⟨.refl g, .inl rfl⟩ ?_ h).2
  rintro user huser x y ⟨hsame, hx⟩ hok
  refine ⟨hsame.trans (SamePlaces.of_redirectFrom hok), ?_⟩
  rcases reach_redirectFrom (hsame.owner user ▸ hb user huser) hok with rfl | hy
  · exact hx
  · rcases hx with rfl | hx
    · exact .inr hy
    · exact .inr (by rw [hy, hx, upTo_upTo])

namespace Consistent
variable (h : g.Consistent) (hv : v ≠ some (.result o)) {order : List OpId}
  (hperm : order.Perm (g.op o).uses.users)
include h hv hperm

/-- A single user is enough for the tables to reach as far as the value. -/
theorem reach_redirectAll (hok : g.redirectAll o v order = .ok x) : x.reach =
    if (g.op o).uses.users = [] then g.reach else upTo v g.reach := by
  split
  · rename_i hnone
    obtain rfl : order = [] := (hnone ▸ hperm).eq_nil
    rw [Except.ok.inj hok]
  · rename_i hsome
    obtain ⟨u, hu⟩ := List.exists_mem_of_ne_nil _ hsome
    have hattached : ∀ w ∈ order, (g.op w).block.isSome := fun w hw =>
      (h.of_mem_users (hperm.subset hw)).1
    refine (Graph.reach_redirectAll hattached hok).resolve_left ?_
    rintro rfl
    obtain ⟨y, hy, hr⟩ := h.redirects v hperm
    obtain rfl : y = x := Except.ok.inj (hy.symm.trans hok)
    -- its users would still be on record
    have hzero := (h.turned hv hr).given
    rw [hzero] at hu
    cases hu

/-- The users that are left on record are those that have not been visited. -/
theorem users_left {done rest : List OpId} (hsplit : order = done ++ rest) :
    ∃ x, g.redirectAll o v done = .ok x ∧ (x.op o).uses.users.Perm rest := by
  have hn : order.Nodup := hperm.symm.nodup (g.op o).uses.nodup_users
  obtain ⟨hdone, hrest, hapart⟩ := List.nodup_append.1 (hsplit ▸ hn)
  have huser : ∀ u ∈ done, (g.op u).block.isSome ∧
      g.recorded (.result o) u = g.slots u (.result o) := fun u hu =>
    h.of_mem_users (hperm.subset (by simp [hsplit, hu]))
  obtain ⟨x, hx, hr⟩ := redirects_eq_ok v hdone huser
  refine ⟨x, hx, (List.perm_ext_iff_of_nodup (x.op o).uses.nodup_users hrest).2 fun u => ?_⟩
  have hbal := hr.balance (.result o) trivial u
  have hmem : u ∈ done ∨ u ∈ rest ↔ 0 < g.recorded (.result o) u := by
    rw [← List.mem_append, ← hsplit, hperm.mem_iff]
    exact UseSet.mem_users
  rw [UseSet.mem_users]
  change 0 < x.recorded (.result o) u ↔ _
  by_cases hu : u ∈ done
  · have hexact := (huser u hu).2
    rw [if_pos hu, count_map_turn_self hv] at hbal
    exact iff_of_false (by omega) fun hrest => hapart u hu u hrest rfl
  · rw [if_neg hu, ← slots] at hbal
    have hsame : x.recorded (.result o) u = g.recorded (.result o) u := by omega
    rw [hsame, ← hmem]
    exact or_iff_right hu

end Consistent

/-- It does not matter in which order the users of an op are turned to another value. No visit
breaks off, the users still on record are at all times those that are to come, and the graph in the
end is the same: slots that held the op hold the value, which has the users of the op in addition to
its own. -/
theorem replaceAllUses_any_order (h : g.Consistent) (hv : v ≠ some (.result o)) :
    ∃ g', g.replaceAllUses o v = .ok g' ∧ g.Turned g' o v ∧
      ∀ order, order.Perm (g.op o).uses.users → g.redirectAll o v order = .ok g' ∧
        ∀ done rest, order = done ++ rest →
          ∃ x, g.redirectAll o v done = .ok x ∧ (x.op o).uses.users.Perm rest := by
  obtain ⟨g', hok, hr⟩ := h.redirects v (.refl (g.op o).uses.users)
  refine ⟨g', by rw [replaceAllUses, if_neg hv, hok], h.turned hv hr, fun order hperm => ⟨?_,
    fun done rest hsplit => h.users_left hv hperm hsplit⟩⟩
  obtain ⟨x, hx, hrx⟩ := h.redirects v hperm
  have hreach : x.reach = g'.reach :=
    (h.reach_redirectAll hv hperm hx).trans (h.reach_redirectAll hv (.refl _) hok).symm
  rw [redirectAll, hx, hrx.eq hr (congrArg Prod.fst hreach) (congrArg Prod.snd hreach)]

/-- The value is itself a user of the op, in both of its slots, and ends up as a user of its own. -/
theorem replaceAllUses_any_order_own : ∃ g g' : Graph,
    (g.op ⟨1⟩).args = [some (.result ⟨0⟩), some (.result ⟨0⟩)] ∧
    g.replaceAllUses ⟨0⟩ (some (.result ⟨1⟩)) = .ok g' ∧
    (g'.op ⟨1⟩).args = [some (.result ⟨1⟩), some (.result ⟨1⟩)] := by
  obtain ⟨g, hexact, hlist, -, -, -, -, -, hargs⟩ := exists_laid
  obtain ⟨g', hok, hturned, -⟩ := replaceAllUses_any_order (o := ⟨0⟩) (v := some (.result ⟨1⟩))
    hexact.consistent (by decide)
  have hblock : (g.op ⟨1⟩).block = some ⟨0⟩ := hexact.block_of_mem (by simp [hlist])
  refine ⟨g, g', hargs, hok, ?_⟩
  change (g'.op ⟨1⟩).bare.args = _
  rw [hturned.op, hblock, hargs]
  rfl

end Graph
end Disguise
