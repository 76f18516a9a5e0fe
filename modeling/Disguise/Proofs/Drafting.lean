import Disguise.Proofs.Checking
import Disguise.Proofs.Lines

/-!
Drafts that follow a function. The lines of a well-formed function lead from its header to a draft
that holds the same under names, in which every name is known.
-/
namespace Disguise.Syntax
open Bytes Reader Results

/-- An op without the number of its line. -/
def DraftOp.unplaced (op : DraftOp) : DraftOp := { op with line := 0 }

namespace Draft

theorem length_body (d : Draft) : d.body.length = d.blocks.length := by
  simp [body]

theorem body_addBlock (d : Draft) (name : Bytes) :
    (d.addBlock name).body = d.body ++ [(name, [])] := by
  simp [body, addBlock]

/-- An op is put behind those of the last block. -/
theorem addOp_eq_ok {d : Draft} {init : List (Bytes × List DraftOp)} {name : Bytes}
    {ops : List DraftOp} (h : d.body = init ++ [(name, ops)]) (op : DraftOp) :
    ∃ d', d.addOp op = .ok d' ∧ d'.body = init ++ [(name, ops ++ [op])] ∧ d'.header = d.header ∧
      d'.numOps = d.numOps + 1 ∧ d'.labels = d.labels ∧
      d'.values = op.result.elim d.values fun result => d.values.insert (.op d.numOps) result := by
  obtain ⟨header, blocks, numOps, values, labels⟩ := d
  have hblocks := congrArg List.reverse h
  simp only [body, List.reverse_reverse, List.reverse_append, List.reverse_cons, List.reverse_nil,
    List.nil_append, List.singleton_append] at hblocks
  obtain ⟨last, rest, rfl, hlast, hrest⟩ := List.map_eq_cons_iff.1 hblocks
  obtain ⟨name', ops'⟩ := last
  simp only [Prod.mk.injEq] at hlast
  obtain ⟨rfl, rfl⟩ := hlast
  refine ⟨_, rfl, ?_, rfl, rfl, rfl, rfl⟩
  simp [body, hrest]

/-- An op that could be put somewhere was put behind those of the last block. -/
theorem exists_of_addOp {d d' : Draft} {op : DraftOp} (h : d.addOp op = .ok d') :
    ∃ init name ops, d.body = init ++ [(name, ops)] ∧ d'.body = init ++ [(name, ops ++ [op])] ∧
      d'.header = d.header ∧ d'.numOps = d.numOps + 1 ∧ d'.labels = d.labels ∧
      d'.values = op.result.elim d.values fun result => d.values.insert (.op d.numOps) result := by
  rcases List.eq_nil_or_concat d.body with hnil | ⟨init, ⟨name, ops⟩, hbody⟩
  · have hblocks : d.blocks = [] := by
      rw [← List.length_eq_zero_iff, ← length_body, hnil, List.length_nil]
    rw [addOp, hblocks] at h
    cases h
  · rw [List.concat_eq_append] at hbody
    obtain ⟨d₁, hok, hd₁⟩ := addOp_eq_ok hbody op
    obtain rfl := Except.ok.inj (hok.symm.trans h)
    exact ⟨init, name, ops, hbody, hd₁⟩

/-- The params with their places, by name. -/
theorem zipIdx_names (h : Header) :
    h.params.zipIdx.map (fun q => q.1.1) = h.params.map (·.1) := by
  conv_rhs => rw [← h.params.zipIdx_map_fst 0, List.map_map]
  rfl

/-- The names of its params are known in a new draft and no others. -/
theorem contains_start {h : Header} {name : Bytes} :
    (start h).values.contains name ↔ name ∈ h.params.map (·.1) := by
  have hfold : ∀ (l : List ((Bytes × Int) × Nat)) (values : Dictionary Origin),
      (l.foldl (fun values q => values.insert (.param q.2) q.1.1) values).contains name ↔
        name ∈ l.map (fun q => q.1.1) ∨ values.contains name := by
    intro l
    induction l with
    | nil => simp
    | cons q l ih =>
      intro values
      rw [List.foldl_cons, ih, Dictionary.contains_insert, List.map_cons, List.mem_cons,
        Bool.or_eq_true, decide_eq_true_eq]
      tauto
  refine (hfold _ _).trans ?_
  rw [zipIdx_names]
  simp [Dictionary.contains]

theorem find?_start_of_notMem {h : Header} {name : Bytes} (hname : name ∉ h.params.map (·.1)) :
    (start h).values.find? name = none :=
  Option.not_isSome_iff_eq_none.1 fun hknown => hname (contains_start.1 hknown)

/-- A param of its own name is known by its place. -/
theorem find?_start {h : Header} (hn : (h.params.map (·.1)).Nodup) {i : Nat} {p : Bytes × Int}
    (hp : h.params[i]? = some p) : (start h).values.find? p.1 = some (.param i) := by
  have hknown := foldl_done (l := h.params.zipIdx)
    (k := fun d (q : (Bytes × Int) × Nat) => d.insert (.param q.2) q.1.1)
    (s := (Dictionary.empty : Dictionary Origin))
    (P := fun done d => ∀ q ∈ done, d.find? q.1.1 = some (.param q.2))
    (by simp) (by
      rintro done a rest d hsplit hknown q hq
      have hfresh : ∀ q ∈ done, q.1.1 ≠ a.1.1 := by
        rw [← zipIdx_names, hsplit, List.map_append, List.map_cons] at hn
        exact fun q hq => (List.nodup_append.1 hn).2.2 _ (List.mem_map_of_mem hq) _ (by simp)
      rw [Dictionary.find?_insert]
      rcases List.mem_append.1 hq with hq | hq
      · rw [if_neg (hfresh q hq)]
        exact hknown q hq
      · rw [List.mem_singleton.1 hq, if_pos rfl])
  exact hknown (p, i) (List.mem_zipIdx_iff_getElem?.2 hp)

end Draft

theorem getElem?_concat {α : Type} {l : List α} {a b : α} {i : Nat}
    (h : (l ++ [a])[i]? = some b) : l[i]? = some b ∨ i = l.length ∧ b = a := by
  rcases Nat.lt_or_ge i l.length with hlt | hge
  · exact .inl (by rwa [List.getElem?_append_left hlt] at h)
  · rw [List.getElem?_append_right hge, List.getElem?_singleton] at h
    split at h
    · exact .inr ⟨by omega, (Option.some.inj h).symm⟩
    · cases h

/-- No param is called like a result. -/
theorem paramName_ne_decimalNat {g : Graph} {f : FuncId} (hn : g.Named f) {p : ParamId}
    (hp : p ∈ (g.func f).params) (n : Nat) : (g.param p).name ≠ decimalNat n := by
  intro heq
  have hstart := hn.paramStart p hp
  obtain ⟨b, rest, hdigits⟩ := List.exists_cons_of_ne_nil (digits_ne_nil 10 n)
  have hdigit := isDigitByte_of_mem_decimalNat n b (by simp [decimalNat, hdigits])
  rw [heq, decimalNat, hdigits] at hstart
  simp [hdigit] at hstart

/-- The names of the params and of the results of some ops are known, those of other ops are
free. -/
structure Knows (g : Graph) (f : FuncId) (values : Dictionary Origin) (ops : List OpId) : Prop where
  params : ∀ i p, (g.func f).params[i]? = some p →
    values.find? (g.param p).name = some (.param i)
  results : ∀ i o, ops[i]? = some o → o ∈ resultsOf g f →
    values.find? (decimalNat ((resultsOf g f).idxOf o)) = some (.op i)
  free : ∀ o ∈ resultsOf g f, o ∉ ops →
    values.find? (decimalNat ((resultsOf g f).idxOf o)) = none

namespace Knows
variable {g : Graph} {f : FuncId} {values : Dictionary Origin} {ops : List OpId} {o : OpId}
  (h : Knows g f values ops)
include h

/-- An op without a result changes nothing. -/
theorem skip (ho : o ∉ resultsOf g f) : Knows g f values (ops ++ [o]) where
  params := h.params
  results i u hu hmem := by
    rcases getElem?_concat hu with hu | ⟨-, rfl⟩
    · exact h.results i u hu hmem
    · exact absurd hmem ho
  free u hu hops := h.free u hu fun hmem => hops (List.mem_append_left _ hmem)

/-- The result of the next op is known from now on. -/
theorem insert (hn : g.Named f) (ho : o ∈ resultsOf g f) (hfresh : o ∉ ops) :
    Knows g f (values.insert (.op ops.length) (decimalNat ((resultsOf g f).idxOf o)))
      (ops ++ [o]) := by
  have hother : ∀ u ∈ resultsOf g f, u ≠ o →
      decimalNat ((resultsOf g f).idxOf u) ≠ decimalNat ((resultsOf g f).idxOf o) :=
    fun u hu hne heq => hne ((List.idxOf_inj hu).1 (Numeral.decimalNat_injective heq))
  refine ⟨fun i p hp => ?_, fun i u hu hmem => ?_, fun u hu hops => ?_⟩
  · rw [Dictionary.find?_insert,
      if_neg (paramName_ne_decimalNat hn (List.mem_of_getElem? hp) _)]
    exact h.params i p hp
  · rw [Dictionary.find?_insert]
    rcases getElem?_concat hu with hu | ⟨rfl, rfl⟩
    · have hne : u ≠ o := fun heq => hfresh (heq ▸ List.mem_of_getElem? hu)
      rw [if_neg (hother u hmem hne)]
      exact h.results i u hu hmem
    · rw [if_pos rfl]
  · rw [List.mem_append, not_or] at hops
    rw [Dictionary.find?_insert, if_neg (hother u hu (by simpa using hops.2))]
    exact h.free u hu hops.1

end Knows

/-- What has been read of a function: some blocks with some of their ops. -/
structure Follows (g : Graph) (f : FuncId) (d : Draft) (done : List (BlockId × List OpId)) :
    Prop where
  header : d.header = headerOf g (g.func f)
  body : d.body.map (fun b => (b.1, b.2.map DraftOp.unplaced)) =
    done.map fun b => ((g.block b.1).name, b.2.map (draftOp g f 0))
  numOps : d.numOps = (done.flatMap (·.2)).length
  labels : ∀ i b, (done.map (·.1))[i]? = some b → d.labels.find? (g.block b).name = some i
  unlabeled : ∀ name, name ∉ done.map (fun b => (g.block b.1).name) → d.labels.find? name = none
  values : Knows g f d.values (done.flatMap (·.2))

namespace Follows
variable {g : Graph} {f : FuncId} {d : Draft} {done : List (BlockId × List OpId)}

theorem start (hn : g.Named f) (wf : g.WellFormed f) :
    Follows g f (.start (headerOf g (g.func f))) [] := by
  have hnames : ((headerOf g (g.func f)).params.map (·.1)) =
      (g.func f).params.map fun p => (g.param p).name := by
    simp [headerOf]
  have hnodup := wf.paramNames
  rw [← hnames] at hnodup
  refine ⟨rfl, rfl, rfl, by simp, fun name _ => Dictionary.find?_empty name, ?_, by simp,
    fun o _ _ => Draft.find?_start_of_notMem ?_⟩
  · intro i p hp
    have hget : (headerOf g (g.func f)).params[i]? = some ((g.param p).name, (g.param p).bits) := by
      simp [headerOf, hp]
    exact Draft.find?_start hnodup hget
  · rw [hnames]
    intro hmem
    obtain ⟨p, hp, heq⟩ := List.mem_map.1 hmem
    exact paramName_ne_decimalNat hn hp _ heq

/-- The next block is opened. -/
theorem addBlock (h : Follows g f d done) {b : BlockId}
    (hb : (g.block b).name ∉ done.map fun c => (g.block c.1).name) :
    Follows g f (d.addBlock (g.block b).name) (done ++ [(b, [])]) := by
  have hlen : d.blocks.length = (done.map (·.1)).length := by
    have hbody := congrArg List.length h.body
    rwa [List.length_map, List.length_map, Draft.length_body, ← done.length_map (·.1)] at hbody
  have hops : (done ++ [(b, ([] : List OpId))]).flatMap (·.2) = done.flatMap (·.2) := by simp
  constructor
  case header => exact h.header
  case body =>
    rw [Draft.body_addBlock, List.map_append, List.map_append, h.body]
    rfl
  case numOps =>
    rw [hops]
    exact h.numOps
  case values =>
    rw [hops]
    exact h.values
  case labels =>
    intro i c hc
    rw [List.map_append] at hc
    rw [Draft.addBlock, Dictionary.find?_insert]
    rcases getElem?_concat hc with hold | ⟨rfl, rfl⟩
    · obtain ⟨e, he, rfl⟩ := List.mem_map.1 (List.mem_of_getElem? hold)
      have hmem : (g.block e.1).name ∈ done.map fun c => (g.block c.1).name :=
        List.mem_map_of_mem he
      rw [if_neg fun heq : (g.block e.1).name = (g.block b).name => hb (heq ▸ hmem)]
      exact h.labels i e.1 hold
    · rw [if_pos rfl, hlen]
  case unlabeled =>
    intro name hname
    rw [List.map_append, List.mem_append, not_or] at hname
    rw [Draft.addBlock, Dictionary.find?_insert, if_neg (by simpa using hname.2)]
    exact h.unlabeled name hname.1

/-- The next op is put into the last block. -/
theorem addOp {init : List (BlockId × List OpId)} {b : BlockId} {os rest : List OpId} {o : OpId}
    (h : Follows g f d (init ++ [(b, os)])) (hn : g.Named f) (hnodup : (g.opsOf f).Nodup)
    (hsplit : g.opsOf f = (init.flatMap (·.2) ++ os) ++ o :: rest) (number : Nat) :
    ∃ d', d.addOp (draftOp g f number o) = .ok d' ∧ Follows g f d' (init ++ [(b, os ++ [o])]) := by
  have hold : (init ++ [(b, os)]).flatMap (·.2) = init.flatMap (·.2) ++ os := by simp
  have hnew : (init ++ [(b, os ++ [o])]).flatMap (·.2) = (init.flatMap (·.2) ++ os) ++ [o] := by
    simp
  have hfresh : o ∉ init.flatMap (·.2) ++ os := (not_mem_of_nodup hnodup hsplit).1
  have hof : o ∈ g.opsOf f := by
    rw [hsplit]
    simp
  have hnum := h.numOps
  have hvalues := h.values
  rw [hold] at hnum hvalues
  have hbody := h.body
  rw [@List.map_append _ _ _ init, List.map_singleton] at hbody
  obtain ⟨ds, last, hd, hds, hlast⟩ := List.map_eq_append_iff.1 hbody
  obtain ⟨⟨name, ops⟩, rfl, heq⟩ := List.map_eq_singleton_iff.1 hlast
  obtain ⟨rfl, hops⟩ : name = (g.block b).name ∧
      ops.map DraftOp.unplaced = os.map (draftOp g f 0) := Prod.mk.inj heq
  obtain ⟨d', hok, hbody', hheader', hnum', hlabels', hvalues'⟩ :=
    Draft.addOp_eq_ok hd (draftOp g f number o)
  refine ⟨d', hok, ?_⟩
  constructor
  case header => exact hheader'.trans h.header
  case body =>
    rw [hbody', List.map_append, List.map_append, hds, List.map_singleton, List.map_singleton,
      List.map_append, List.map_append, hops]
    rfl
  case numOps => simp only [hnum', hnew, hnum, List.length_append, List.length_singleton]
  case labels =>
    rw [hlabels']
    simpa using h.labels
  case unlabeled =>
    rw [hlabels']
    simpa using h.unlabeled
  case values =>
    rw [hvalues', hnew]
    cases hterm : (g.op o).code.isTerminator with
    | true =>
      have hnone : (draftOp g f number o).result = none := by simp [draftOp, hterm]
      rw [hnone]
      exact hvalues.skip fun hmem => by simpa [hterm] using (List.mem_filter.1 hmem).2
    | false =>
      have hsome : (draftOp g f number o).result =
          some (decimalNat ((resultsOf g f).idxOf o)) := by simp [draftOp, hterm]
      rw [hsome, hnum]
      exact hvalues.insert hn (List.mem_filter.2 ⟨hof, by simp [hterm]⟩) hfresh

end Follows

/-- Blocks with their ops. -/
def listing (g : Graph) (bs : List BlockId) : List (BlockId × List OpId) :=
  bs.map fun b => (b, (g.block b).ops)

theorem flatMap_listing (g : Graph) (bs : List BlockId) :
    (listing g bs).flatMap (·.2) = bs.flatMap fun b => (g.block b).ops := by
  rw [listing, List.flatMap_map]

namespace Follows
variable {g : Graph} {f : FuncId} {d : Draft} (hd : Follows g f d (listing g (g.func f).blocks))
include hd

/-- All values of the function are known. -/
theorem knows : Knows g f d.values (g.opsOf f) := by
  have hvalues := hd.values
  rwa [flatMap_listing] at hvalues

/-- The ops of a draft are those of the function, in their order. -/
theorem ops_eq : d.ops.map DraftOp.unplaced = (g.opsOf f).map (draftOp g f 0) := by
  have hbody := congrArg (List.flatMap (·.2)) hd.body
  rwa [List.flatMap_map, List.flatMap_map, ← List.map_flatMap, ← List.map_flatMap,
    flatMap_listing] at hbody

/-- The place of a block in the draft. -/
theorem exists_split {pre post : List BlockId} {b : BlockId}
    (hsplit : (g.func f).blocks = pre ++ b :: post) :
    ∃ (pre' : List (Bytes × List DraftOp)) (c : Bytes × List DraftOp)
      (post' : List (Bytes × List DraftOp)), d.body = pre' ++ c :: post' ∧
      pre'.length = pre.length ∧ c.1 = (g.block b).name ∧ c.2.length = (g.block b).ops.length ∧
      (pre'.flatMap (·.2)).length = (pre.flatMap fun b => (g.block b).ops).length := by
  have hbody := hd.body
  rw [hsplit, listing, List.map_map, List.map_append, List.map_cons] at hbody
  obtain ⟨pre', rest, hd', hpre, hrest⟩ := List.map_eq_append_iff.1 hbody
  obtain ⟨c, post', rfl, hc, -⟩ := List.map_eq_cons_iff.1 hrest
  obtain ⟨hname, hops⟩ := Prod.mk.inj hc
  refine ⟨pre', c, post', hd', ?_, hname, ?_, ?_⟩
  · simpa using congrArg List.length hpre
  · simpa using congrArg List.length hops
  · have hlen := congrArg (fun l => (List.flatMap (·.2) l).length) hpre
    simpa [List.flatMap_map, List.length_flatMap, Function.comp_def] using hlen

end Follows
end Disguise.Syntax
