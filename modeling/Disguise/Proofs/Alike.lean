import Disguise.Proofs.Respelling

/-!
Drafts under other names. A line and the renamed line do the same to drafts of the same function, so
the function that is finished in the end is the same one.
-/
namespace Disguise.Syntax
open Bytes Reader Results

/-- A renaming of the results of a function. They get names that differ from each other and from
those of the params, which stay. -/
structure Renames (ρ : Bytes → Bytes) (params results : List Bytes) : Prop where
  ident : ∀ name, IsIdent name → IsIdent (ρ name)
  stay : ∀ p ∈ params, ρ p = p
  apart : ∀ r ∈ results, ρ r ∉ params
  distinct : ∀ r ∈ results, ∀ u ∈ results, ρ r = ρ u → r = u

theorem Renames.inj {ρ : Bytes → Bytes} {params results : List Bytes}
    (h : Renames ρ params results) :
    ∀ a ∈ params ++ results, ∀ b ∈ params ++ results, ρ a = ρ b → a = b := by
  have hcross : ∀ p ∈ params, ∀ r ∈ results, ρ p ≠ ρ r := by
    intro p hp r hr heq
    rw [h.stay p hp] at heq
    exact h.apart r hr (heq ▸ hp)
  intro a ha b hb heq
  rcases List.mem_append.1 ha with ha | ha <;> rcases List.mem_append.1 hb with hb | hb
  · rwa [h.stay a ha, h.stay b hb] at heq
  · exact absurd heq (hcross a ha b hb)
  · exact absurd heq.symm (hcross b hb a ha)
  · exact h.distinct a ha b hb heq

def DraftOp.rename (ρ : Bytes → Bytes) (op : DraftOp) : DraftOp :=
  { op with args := op.args.map (DraftArg.rename ρ), result := op.result.map ρ }

/-- The name of the result that a line of a body defines. -/
def resultOf : Bytes → Option Bytes
  | [] => none
  | b :: s => if b = byte '%' then some (nameAhead s) else none

namespace Draft

/-- Drafts of the same function, the second one under new names and with other numbers of lines.
Only the given names have a meaning. -/
structure Alike (ρ : Bytes → Bytes) (names : List Bytes) (d d' : Draft) : Prop where
  header : d'.header = d.header
  numOps : d'.numOps = d.numOps
  labels : d'.labels = d.labels
  body : d'.body.map (fun b => (b.1, b.2.map DraftOp.unplaced)) =
    d.body.map fun b => (b.1, b.2.map fun op => (op.rename ρ).unplaced)
  known : ∀ name, d.values.contains name → name ∈ names
  values : ∀ name ∈ names, d'.values.find? (ρ name) = d.values.find? name

variable {ρ : Bytes → Bytes} {names : List Bytes} {d d' d₁ : Draft}

theorem Alike.start {h : Header} {results : List Bytes}
    (hρ : Renames ρ (h.params.map (·.1)) results) :
    Alike ρ (h.params.map (·.1) ++ results) (start h) (start h) where
  header := rfl
  numOps := rfl
  labels := rfl
  body := rfl
  known name hname := List.mem_append_left _ (contains_start.1 hname)
  values name hname := by
    rcases List.mem_append.1 hname with hp | hr
    · rw [hρ.stay name hp]
    · have hfree : name ∉ h.params.map (·.1) := by
        intro hp
        have hapart := hρ.apart name hr
        rw [hρ.stay name hp] at hapart
        exact hapart hp
      rw [find?_start_of_notMem hfree, find?_start_of_notMem (hρ.apart name hr)]

namespace Alike
variable (h : Alike ρ names d d')
include h

theorem addBlock (name : Bytes) : Alike ρ names (d.addBlock name) (d'.addBlock name) where
  header := h.header
  numOps := h.numOps
  labels := by
    have hlength := congrArg List.length h.body
    rw [List.length_map, List.length_map, length_body, length_body] at hlength
    rw [Draft.addBlock, Draft.addBlock, h.labels, hlength]
  body := by
    rw [body_addBlock, body_addBlock, List.map_append, List.map_append, h.body]
    rfl
  known := h.known
  values := h.values

theorem contains {name : Bytes} (hname : name ∈ names) :
    d'.values.contains (ρ name) = d.values.contains name := by
  rw [Dictionary.contains, h.values name hname, Dictionary.contains]

theorem addOp (hinj : ∀ a ∈ names, ∀ b ∈ names, ρ a = ρ b → a = b) {op op' : DraftOp}
    (hop : op'.unplaced = (op.rename ρ).unplaced) (hresult : ∀ r ∈ op.result, r ∈ names)
    (hok : d.addOp op = .ok d₁) : ∃ d₁', d'.addOp op' = .ok d₁' ∧ Alike ρ names d₁ d₁' := by
  obtain ⟨init, name, ops, hbody, hbody₁, hheader, hnum, hlabels, hvalues⟩ := exists_of_addOp hok
  have hmap := h.body
  rw [hbody, List.map_append, List.map_singleton] at hmap
  obtain ⟨init', last', hbody', hinit, hlast⟩ := List.map_eq_append_iff.1 hmap
  obtain ⟨⟨name', ops'⟩, rfl, hpair⟩ := List.map_eq_singleton_iff.1 hlast
  obtain ⟨rfl, hops⟩ := Prod.mk.inj hpair
  obtain ⟨d₁', hok', hbody₁', hheader', hnum', hlabels', hvalues'⟩ := addOp_eq_ok hbody' op'
  have hres : op'.result = op.result.map ρ := (congrArg DraftOp.result hop :)
  refine ⟨d₁', hok', ?_, ?_, ?_, ?_, ?_, ?_⟩
  · rw [hheader', hheader, h.header]
  · rw [hnum', hnum, h.numOps]
  · rw [hlabels', hlabels, h.labels]
  · rw [hbody₁', hbody₁, List.map_append, List.map_append, hinit]
    simp only [List.map_cons, List.map_nil, List.map_append, hops, hop]
  · rw [hvalues]
    cases hr : op.result with
    | none => exact h.known
    | some r =>
      intro n hn
      rw [Option.elim_some, Dictionary.contains_insert, Bool.or_eq_true, decide_eq_true_eq] at hn
      rcases hn with rfl | hn
      · exact hresult n hr
      · exact h.known n hn
  · rw [hvalues, hvalues', hres]
    cases hr : op.result with
    | none => exact h.values
    | some r =>
      intro n hn
      have hiff : ρ n = ρ r ↔ n = r := ⟨hinj n hn r (hresult r hr), congrArg ρ⟩
      rw [Option.map_some, Option.elim_some, Option.elim_some, Dictionary.find?_insert,
        Dictionary.find?_insert, h.numOps, h.values n hn]
      simp only [hiff]

end Alike

theorem reading_eq_ok {α : Type} {r : Reader α} {number : Nat} {line rest : Bytes} {a : α × Bytes} :
    reading number line rest r = .ok a ↔ r rest = .ok a :=
  mapError_eq_ok

theorem resultOf_of_read {s t result name : Bytes}
    (h : (do expect (byte '%'); let result ← ident; expect (byte '='); pure (result, ← ident) :
      Reader (Bytes × Bytes)) s = .ok ((result, name), t)) : resultOf s = some result := by
  obtain ⟨_, _, hpercent, h⟩ := bind_run_eq_ok.1 h
  obtain ⟨r, rfl, rfl⟩ := expect_eq_ok.1 hpercent
  obtain ⟨n, _, hident, h⟩ := bind_run_eq_ok.1 h
  obtain ⟨_, _, -, h⟩ := bind_run_eq_ok.1 h
  obtain ⟨_, _, -, h⟩ := bind_run_eq_ok.1 h
  obtain ⟨hpair, -⟩ := pure_run_eq_ok.1 h
  obtain ⟨rfl, -⟩ := Prod.mk.inj hpair
  rw [resultOf, if_pos rfl, nameAhead_of_ident hident]

namespace Alike
variable (h : Alike ρ names d d') (hρ : ∀ name, IsIdent name → IsIdent (ρ name))
  (hinj : ∀ a ∈ names, ∀ b ∈ names, ρ a = ρ b → a = b) {number : Nat} {line rest rest' : Bytes}
  (hs : Renamed ρ rest rest')
include h hρ hinj hs

theorem addTerminator {name : Bytes} (hok : d.addTerminator number line name rest = .ok d₁)
    (number' : Nat) (line' : Bytes) :
    ∃ d₁', d'.addTerminator number' line' name rest' = .ok d₁' ∧ Alike ρ names d₁ d₁' := by
  unfold Draft.addTerminator at hok ⊢
  cases hcode : (Opcode.parse? name).filter (·.isTerminator) with
  | none =>
    rw [hcode] at hok
    cases hok
  | some code =>
    rw [hcode] at hok
    dsimp only at hok ⊢
    obtain ⟨⟨⟨args, targets⟩, left⟩, hread, hok⟩ := bind_eq_ok.1 hok
    obtain ⟨left', hread', -⟩ :=
      mirrors_terminator hρ d.header.retBits code rest rest' _ left hs (reading_eq_ok.1 hread)
    rw [h.header]
    simp only [bind_eq_ok, reading_eq_ok, hread', Except.ok.injEq, exists_eq_left']
    exact h.addOp hinj rfl (by simp) hok

theorem addValue (hresult : ∀ r ∈ resultOf rest, r ∈ names)
    (hok : d.addValue number line rest = .ok d₁) (number' : Nat) (line' : Bytes) :
    ∃ d₁', d'.addValue number' line' rest' = .ok d₁' ∧ Alike ρ names d₁ d₁' := by
  unfold Draft.addValue at hok ⊢
  obtain ⟨⟨⟨result, name⟩, left⟩, hread, hok⟩ := bind_eq_ok.1 hok
  have hmem : result ∈ names := hresult result (resultOf_of_read (reading_eq_ok.1 hread))
  obtain ⟨left', hread', hleft⟩ := mirrors_result hρ rest rest' _ left hs (reading_eq_ok.1 hread)
  dsimp only at hok
  simp only [bind_eq_ok, reading_eq_ok, hread', Except.ok.injEq, exists_eq_left']
  cases hcode : (Opcode.parse? name).filter (!·.isTerminator) with
  | none =>
    rw [hcode] at hok
    cases hok
  | some code =>
    rw [hcode] at hok
    dsimp only at hok ⊢
    obtain ⟨⟨⟨bits, args⟩, last⟩, htyped, hok⟩ := bind_eq_ok.1 hok
    obtain ⟨last', htyped', -⟩ :=
      mirrors_typed hρ left left' _ last hleft (reading_eq_ok.1 htyped)
    simp only [bind_eq_ok, reading_eq_ok, htyped', Except.ok.injEq, exists_eq_left']
    dsimp only at hok ⊢
    rw [h.contains hmem]
    cases hfree : d.values.contains result with
    | true =>
      rw [hfree] at hok
      cases hok
    | false =>
      rw [hfree] at hok
      exact h.addOp hinj rfl (by simpa using hmem) hok

theorem addLine (hresult : ∀ r ∈ resultOf rest, r ∈ names)
    (hok : d.addLine number line rest = .ok d₁) (number' : Nat) (line' : Bytes) :
    ∃ d₁', d'.addLine number' line' rest' = .ok d₁' ∧ Alike ρ names d₁ d₁' := by
  unfold Draft.addLine at hok ⊢
  rw [hs.head?_eq]
  split at hok
  · rename_i hpercent
    rw [if_pos hpercent]
    exact h.addValue hρ hinj hs hresult hok number' line'
  · rename_i hword
    rw [if_neg hword]
    obtain ⟨⟨name, left⟩, hread, hok⟩ := bind_eq_ok.1 hok
    obtain ⟨left', hread', hleft⟩ := mirrors_ident rest rest' name left hs (reading_eq_ok.1 hread)
    simp only [bind_eq_ok, reading_eq_ok, hread', Except.ok.injEq, exists_eq_left']
    dsimp only [id] at hok ⊢
    rw [hleft.head?_eq]
    split at hok
    · rename_i hcolon
      rw [if_pos hcolon]
      cases hleft with
      | nil => cases hcolon
      | name => exact absurd (Option.some.inj hcolon) (by decide)
      | @keep b tail tail' plain hrest =>
        rw [List.drop_one, List.tail_cons] at hok ⊢
        split at hok
        · cases hok
        · rename_i hblank
          split at hok
          · cases hok
          · rename_i hfree
            obtain rfl := Except.ok.inj hok
            refine ⟨d'.addBlock name, ?_, h.addBlock name⟩
            have htail := hrest.eq_of_all (p := isSpace) (by decide) (by simpa using hblank)
            rw [htail, if_neg hblank, h.labels]
            exact if_neg hfree
    · rename_i hcolon
      rw [if_neg hcolon]
      exact h.addTerminator hρ hinj hleft hok number' line'

omit hρ hinj hs

theorem ops_eq : d'.ops.map DraftOp.unplaced = d.ops.map fun op => (op.rename ρ).unplaced := by
  have hparts := congrArg (List.flatMap (·.2)) h.body
  simpa only [Draft.ops, List.flatMap_map, List.map_flatMap] using hparts

/-- An op whose names are known is linked to the same values and blocks. -/
theorem link (x : Graph) {op : DraftOp}
    (hknown : ∀ name, DraftArg.named name ∈ op.args → d.values.contains name) :
    d'.link x (op.rename ρ).unplaced = d.link x op := by
  have hargs : (op.args.map (DraftArg.rename ρ)).map (d'.resolve x) =
      op.args.map (d.resolve x) := by
    rw [List.map_map]
    refine List.map_congr_left fun a ha => ?_
    cases a with
    | const c => rfl
    | named name =>
      have hvalue := h.values name (h.known name (hknown name ha))
      rw [Function.comp_apply, DraftArg.rename, resolve, resolve, hvalue]
  have htargets : d'.resolveTarget x = d.resolveTarget x := by
    funext name
    rw [resolveTarget, resolveTarget, h.labels]
  simp only [Draft.link, DraftOp.rename, DraftOp.unplaced, hargs, htargets]

/-- What is built from drafts whose names are known. -/
theorem build (hknown : ∀ op ∈ d.ops, ∀ name, DraftArg.named name ∈ op.args →
    d.values.contains name) (x : Graph) (m : ModuleId) : d'.build x m = d.build x m := by
  have hnames : d'.body.map Prod.fst = d.body.map Prod.fst := by
    have hfirst := congrArg (List.map Prod.fst) h.body
    rw [List.map_map, List.map_map] at hfirst
    exact hfirst
  have hlength : d'.body.length = d.body.length := by
    simpa only [List.length_map] using congrArg List.length h.body
  have hops : d'.ops.map (d'.link x) = d.ops.map (d.link x) := by
    calc d'.ops.map (d'.link x) = (d'.ops.map DraftOp.unplaced).map (d'.link x) := by
          rw [List.map_map]
          rfl
      _ = d.ops.map fun op => d'.link x (op.rename ρ).unplaced := by
          rw [h.ops_eq, List.map_map]
          rfl
      _ = d.ops.map (d.link x) := List.map_congr_left fun op hop => h.link x (hknown op hop)
  have hlaid : d'.laid x m = d.laid x m := by
    have hblocks : d'.body.map (fun b => ({ owner := some ⟨x.funcs.size⟩, name := b.1 } : Block)) =
        d.body.map fun b => ({ owner := some ⟨x.funcs.size⟩, name := b.1 } : Block) := by
      have hmake := congrArg
        (List.map fun name => ({ owner := some ⟨x.funcs.size⟩, name } : Block)) hnames
      rw [List.map_map, List.map_map] at hmake
      exact hmake
    simp only [laid, head, hops, h.header, hblocks, hlength]
  have hfill : ∀ (k : DraftOp → DraftOp) (body : List (Bytes × List DraftOp)) s,
      (body.map fun b => (b.1, b.2.map k)).foldl fillNext s = body.foldl fillNext s := by
    intro k body s
    rw [List.foldl_map]
    simp only [fillNext, List.length_map]
    rfl
  rw [build_eq, build_eq, hlaid, ← hfill DraftOp.unplaced d'.body, h.body,
    hfill (fun op => (op.rename ρ).unplaced)]

/-- The finished function. -/
theorem finish {x : Graph} {m : ModuleId} {r : Graph × FuncId} (hok : d.finish x m = .ok r) :
    d'.finish x m = .ok r := by
  obtain ⟨hknown, hblocks, rfl⟩ := finish_eq_ok.1 hok
  obtain ⟨hvalues, htargets⟩ := unresolved_eq_none.1 hknown
  have hop : ∀ op' ∈ d'.ops, ∃ op ∈ d.ops, op'.args = op.args.map (DraftArg.rename ρ) ∧
      op'.targets = op.targets := by
    intro op' hmem
    have hmap : op'.unplaced ∈ d'.ops.map DraftOp.unplaced := List.mem_map_of_mem hmem
    rw [h.ops_eq] at hmap
    obtain ⟨op, hop, heq⟩ := List.mem_map.1 hmap
    exact ⟨op, hop, (congrArg DraftOp.args heq).symm, (congrArg DraftOp.targets heq).symm⟩
  refine finish_eq_ok.2 ⟨unresolved_eq_none.2 ⟨fun op' hmem name hname => ?_,
    fun op' hmem name hname => ?_⟩, fun hnil => hblocks ?_, h.build hvalues x m⟩
  · obtain ⟨op, hop, hargs, -⟩ := hop op' hmem
    rw [hargs] at hname
    obtain ⟨a, ha, heq⟩ := List.mem_map.1 hname
    cases a with
    | const c => cases heq
    | named n =>
      obtain rfl : ρ n = name := DraftArg.named.inj heq
      rw [h.contains (h.known n (hvalues op hop n ha))]
      exact hvalues op hop n ha
  · obtain ⟨op, hop, -, htarget⟩ := hop op' hmem
    rw [htarget] at hname
    rw [h.labels]
    exact htargets op hop name hname
  · have hlength := congrArg List.length h.body
    rw [List.length_map, List.length_map, length_body, length_body, hnil] at hlength
    exact List.length_eq_zero_iff.1 hlength.symm

end Alike

/-- What an accepted line makes known: all that was known before, and a result that was not. -/
theorem values_of_addLine {number : Nat} {line rest : Bytes}
    (hok : d.addLine number line rest = .ok d₁) :
    (∀ name, d.values.contains name → d₁.values.contains name) ∧
      ∀ r ∈ resultOf rest, d.values.contains r = false := by
  have hop : ∀ {d d₁ : Draft} {op : DraftOp}, d.addOp op = .ok d₁ →
      ∀ name, d.values.contains name → d₁.values.contains name := by
    intro d d₁ op hok name hname
    obtain ⟨-, -, -, -, -, -, -, -, hvalues⟩ := exists_of_addOp hok
    rw [hvalues]
    cases op.result with
    | none => exact hname
    | some result => rw [Option.elim_some, Dictionary.contains_insert, hname, Bool.or_true]
  unfold Draft.addLine at hok
  split at hok
  · unfold Draft.addValue at hok
    obtain ⟨⟨⟨result, name⟩, left⟩, hread, hok⟩ := bind_eq_ok.1 hok
    dsimp only at hok
    split at hok
    · cases hok
    · obtain ⟨⟨⟨bits, args⟩, last⟩, -, hok⟩ := bind_eq_ok.1 hok
      dsimp only at hok
      split at hok
      · cases hok
      · rename_i hfree
        refine ⟨hop hok, ?_⟩
        rw [resultOf_of_read (reading_eq_ok.1 hread)]
        simpa using hfree
  · rename_i hword
    have hnone : resultOf rest = none := by
      cases rest with
      | nil => rfl
      | cons b rest => exact if_neg fun hb => hword (congrArg some hb)
    rw [hnone]
    refine ⟨?_, by simp⟩
    obtain ⟨⟨name, left⟩, -, hok⟩ := bind_eq_ok.1 hok
    dsimp only at hok
    split at hok
    · split at hok
      · cases hok
      · split at hok
        · cases hok
        · obtain rfl := Except.ok.inj hok
          exact fun _ hname => hname
    · unfold Draft.addTerminator at hok
      split at hok
      · cases hok
      · obtain ⟨⟨⟨args, targets⟩, left⟩, -, hok⟩ := bind_eq_ok.1 hok
        exact hop hok

end Draft
end Disguise.Syntax
