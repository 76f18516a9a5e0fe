import Disguise.Policy
import Disguise.Proofs.Lookup
import Disguise.Proofs.Results

/-!
Copying annotations into metadata. Metadata is asked before the annotation, so a word that moves up
could change a decision. Numbers never change, and switches change in one case only: metadata that
ask for the transformation no longer win over an annotation that forbids it.
-/
namespace Disguise
open Results

namespace Tags
variable {tags words : List Bytes} {name w : Bytes}

/-- Tags followed by the words that are not among them yet. -/
def addAll (tags words : List Bytes) : List Bytes :=
  words.foldl (fun tags word => if tags.contains word then tags else tags ++ [word]) tags

theorem addAll_cons : addAll tags (w :: words) =
    addAll (if w ∈ tags then tags else tags ++ [w]) words := by
  simp only [addAll, List.foldl_cons, List.contains_iff_mem]

theorem mem_addAll {a : Bytes} : a ∈ addAll tags words ↔ a ∈ tags ∨ a ∈ words := by
  induction words generalizing tags with
  | nil => simp [addAll]
  | cons w words ih =>
    rw [addAll_cons, ih, List.mem_cons, ← or_assoc]
    split
    · rename_i hw
      exact or_congr_left (or_iff_left_of_imp fun heq => heq ▸ hw).symm
    · rw [List.mem_append, List.mem_singleton]

theorem addAll_of_subset (h : ∀ a ∈ words, a ∈ tags) : addAll tags words = tags := by
  induction words with
  | nil => rfl
  | cons w words ih =>
    rw [addAll_cons, if_pos (h w (by simp)), ih fun a ha => h a (by simp [ha])]

/-- The words of a list that are not among the tags, once each and in the order in which they come
first. -/
structure Fresh (tags words new : List Bytes) : Prop where
  nodup : new.Nodup
  mem : ∀ a, a ∈ new ↔ a ∈ words ∧ a ∉ tags
  order : new.Pairwise fun a b => words.idxOf a < words.idxOf b

theorem idxOf_cons_of_ne {a : Bytes} (h : w ≠ a) :
    (w :: words).idxOf a = words.idxOf a + 1 := by
  rw [List.idxOf_cons, beq_false_of_ne h]
  rfl

/-- Words behind the first one have the order that they have without it. -/
theorem pairwise_idxOf_cons {new : List Bytes} (hw : w ∉ new)
    (h : new.Pairwise fun a b => words.idxOf a < words.idxOf b) :
    new.Pairwise fun a b => (w :: words).idxOf a < (w :: words).idxOf b := by
  refine h.imp_of_mem fun {a b} ha hb hlt => ?_
  have hne : ∀ c ∈ new, w ≠ c := fun c hc heq => hw (heq ▸ hc)
  rw [idxOf_cons_of_ne (hne a ha), idxOf_cons_of_ne (hne b hb)]
  exact Nat.succ_lt_succ hlt

theorem exists_fresh (tags words : List Bytes) :
    ∃ new, addAll tags words = tags ++ new ∧ Fresh tags words new := by
  induction words generalizing tags with
  | nil => exact ⟨[], by simp [addAll], .nil, by simp, .nil⟩
  | cons w words ih =>
    rw [addAll_cons]
    split
    · rename_i hw
      obtain ⟨new, heq, hnew⟩ := ih tags
      have hnot : w ∉ new := fun hmem => ((hnew.mem w).1 hmem).2 hw
      refine ⟨new, heq, hnew.nodup, fun a => ?_, pairwise_idxOf_cons hnot hnew.order⟩
      rw [hnew.mem, List.mem_cons, or_and_right]
      exact (or_iff_right fun h => h.2 (h.1 ▸ hw)).symm
    · rename_i hw
      obtain ⟨new, heq, hnew⟩ := ih (tags ++ [w])
      have hnot : w ∉ new := fun hmem => ((hnew.mem w).1 hmem).2 (by simp)
      refine ⟨w :: new, by rw [heq, List.append_assoc, List.singleton_append],
        List.nodup_cons.2 ⟨hnot, hnew.nodup⟩, fun a => ?_,
        List.pairwise_cons.2 ⟨fun b hb => ?_, pairwise_idxOf_cons hnot hnew.order⟩⟩
      · rw [List.mem_cons, hnew.mem, List.mem_cons, List.mem_append, List.mem_singleton]
        by_cases ha : a = w
        · simp [ha, hw]
        · simp [ha]
      · have hne : w ≠ b := fun heq => hnot (heq ▸ hb)
        rw [List.idxOf_cons_self, idxOf_cons_of_ne hne]
        exact Nat.succ_pos _

/-- Words that are added count as tags. -/
theorem bool?_addAll : bool? (addAll tags words) name =
    if text "no" ++ name ∈ tags ∨ text "no" ++ name ∈ words then some false
    else if name ∈ tags ∨ name ∈ words then some true else none := by
  simp only [bool?, mem_addAll]

theorem number?_cons : number? (w :: words) name = (number? [w] name).or (number? words name) := by
  cases hw : Bytes.stripPrefix? (name ++ text "=") w <;> simp [number?, hw]

theorem number?_append : number? (tags ++ words) name =
    (number? tags name).or (number? words name) := by
  simp [number?, List.findSome?_append, Option.map_or]

/-- A number among the tags is found before the same one in a word. -/
theorem number?_of_mem (hw : w ∈ tags) (hname : (number? [w] name).isSome) :
    (number? tags name).isSome := by
  obtain ⟨pre, post, rfl⟩ := List.append_of_mem hw
  rw [number?_append, number?_cons]
  simp [hname]

/-- Numbers are those of the tags, or else those of the words. -/
theorem number?_addAll : number? (addAll tags words) name =
    (number? tags name).or (number? words name) := by
  induction words generalizing tags with
  | nil => simp [addAll, number?]
  | cons w words ih =>
    rw [addAll_cons, ih, number?_cons]
    split
    · rename_i hw
      cases hname : number? [w] name with
      | none => rfl
      | some n =>
        obtain ⟨k, hk⟩ := Option.isSome_iff_exists.1 (number?_of_mem hw (by rw [hname]; rfl))
        rw [hk]
        rfl
    · rw [number?_append, Option.or_assoc]

end Tags

theorem Func.tagged_eq (f : Func) :
    f.tagged = { f with metadata := Tags.addAll f.metadata (Blank.words f.annotation) } := by
  simp only [tagged, Tags.addAll, List.contains_iff_mem]

theorem Func.metadata_tagged (f : Func) :
    f.tagged.metadata = Tags.addAll f.metadata (Blank.words f.annotation) := by
  rw [f.tagged_eq]

theorem Func.annotation_tagged (f : Func) : f.tagged.annotation = f.annotation := rfl

theorem Func.tagged_tagged (f : Func) : f.tagged.tagged = f.tagged := by
  have hsame : Tags.addAll f.tagged.metadata (Blank.words f.annotation) = f.tagged.metadata := by
    rw [f.metadata_tagged]
    exact Tags.addAll_of_subset fun a ha => Tags.mem_addAll.2 (.inr ha)
  rw [f.tagged.tagged_eq, f.annotation_tagged, hsame]
  rfl

namespace Policy
variable (p : Policy) (f : Func)

/-- The metadata of a function ask for its transformation, but its annotation forbids it. -/
structure Torn : Prop where
  eligible : eligible f
  asked : p.tag ∈ f.metadata
  spared : text "no" ++ p.tag ∉ f.metadata
  forbidden : text "no" ++ p.tag ∈ Blank.words f.annotation

theorem passCount_tagged : p.passCount f.tagged = p.passCount f := by
  simp only [passCount, f.metadata_tagged, f.annotation_tagged, Tags.number?_addAll,
    Option.or_assoc, Option.or_self]

variable {p f}

/-- The annotation forbids once it is part of the metadata. -/
theorem Torn.selects (h : p.Torn f) : p.selects f = true ∧ p.selects f.tagged = false := by
  have hbefore : p.byTags? f = some true := by
    rw [byTags?, Tags.bool?, if_neg h.spared, if_pos h.asked]
    rfl
  have hafter : p.byTags? f.tagged = some false := by
    rw [byTags?, f.metadata_tagged, Tags.bool?_addAll, if_pos (.inr h.forbidden)]
    rfl
  simp [Policy.selects, hbefore, hafter, h.eligible]

/-- Wherever else a word stood, asked first or last, it comes to the same. -/
theorem byTags?_tagged (h : ¬ (p.tag ∈ f.metadata ∧ text "no" ++ p.tag ∉ f.metadata ∧
    text "no" ++ p.tag ∈ Blank.words f.annotation)) : p.byTags? f.tagged = p.byTags? f := by
  rw [byTags?, byTags?, f.metadata_tagged, f.annotation_tagged, Tags.bool?_addAll, Tags.bool?,
    Tags.bool?]
  by_cases hno : text "no" ++ p.tag ∈ f.metadata
  · simp [hno]
  · by_cases hyes : p.tag ∈ f.metadata
    · have hfree : text "no" ++ p.tag ∉ Blank.words f.annotation := fun hmem =>
        h ⟨hyes, hno, hmem⟩
      simp [hno, hyes, hfree]
    · simp only [hno, hyes, false_or, if_false, Option.none_or]
      split
      · rfl
      · split <;> rfl

theorem selects_tagged (h : ¬ p.Torn f) : p.selects f.tagged = p.selects f := by
  cases he : eligible f with
  | false =>
    have htagged : eligible f.tagged = false := he
    rw [selects, selects, htagged, he, Bool.false_and, Bool.false_and]
  | true =>
    have hsame := byTags?_tagged (p := p) (f := f) fun hno => h ⟨he, hno.1, hno.2.1, hno.2.2⟩
    rw [selects, selects, hsame]
    rfl

end Policy

namespace Graph
variable {g x : Graph} {m : ModuleId} {fs : List FuncId}

/-- The functions of a list have been tagged, and nothing else is different. -/
structure Tagged (g x : Graph) (fs : List FuncId) : Prop where
  func : ∀ k, x.func k = if k ∈ fs then (g.func k).tagged else g.func k
  there : ∀ k ∈ fs, k.idx < x.funcs.size
  ops : x.ops = g.ops
  params : x.params = g.params
  blocks : x.blocks = g.blocks
  modules : x.modules = g.modules

/-- A function that is listed twice is tagged as if it were listed once. -/
theorem Tagged.step {f : FuncId} (h : Tagged g x fs) :
    Tagged g (x.modifyFunc f Func.tagged) (fs ++ [f]) where
  func k := by
    rw [func_modifyFunc, h.func k, h.func f]
    by_cases hk : k = f
    · subst hk
      by_cases hmem : k ∈ fs
      · simp [hmem, Func.tagged_tagged]
      · simp [hmem]
    · simp [hk]
  there k hk := by
    rw [modifyFunc, Table.size_modify]
    rcases List.mem_append.1 hk with hk | hk
    · exact Nat.lt_of_lt_of_le (h.there k hk) (Nat.le_max_left _ _)
    · rw [List.mem_singleton.1 hk]
      exact Nat.lt_of_lt_of_le (Nat.lt_succ_self _) (Nat.le_max_right _ _)
  ops := h.ops
  params := h.params
  blocks := h.blocks
  modules := h.modules

theorem tagged_tagModule (g : Graph) (m : ModuleId) : Tagged g (g.tagModule m) (g.module m).funcs :=
  foldl_done (P := fun done x => Tagged g x done) ⟨by simp, by simp, rfl, rfl, rfl, rfl⟩
    fun _ _ _ _ _ => Tagged.step

/-- Functions that are tagged already stay as they are. -/
theorem tagModule_tagModule (g : Graph) (m : ModuleId) :
    (g.tagModule m).tagModule m = g.tagModule m := by
  have h := tagged_tagModule g m
  have hlist : ((g.tagModule m).module m).funcs = (g.module m).funcs := by
    rw [module, module, h.modules]
  refine foldl_done (P := fun _ x => x = g.tagModule m) rfl ?_
  rintro done f rest x hsplit rfl
  have hf : f ∈ (g.module m).funcs := by
    rw [← hlist, hsplit]
    simp
  refine modifyFunc_self _ f _ (h.there f hf) ?_
  rw [h.func f, if_pos hf, Func.tagged_tagged]

/-- What copying the annotations of a module into its metadata changes. Of a function of the module
only the metadata are longer, by the words of the annotation that were not there. Every policy makes
as many passes; it transforms the function as before, unless the metadata asked for that and the
annotation forbids it: then it no longer does. Copying once more changes nothing. -/
theorem tagModule_changes {f : FuncId} (hf : f ∈ (g.module m).funcs) :
    (∀ p : Policy, p.passCount ((g.tagModule m).func f) = p.passCount (g.func f) ∧
      (p.selects ((g.tagModule m).func f) ≠ p.selects (g.func f) ↔ p.Torn (g.func f)) ∧
      (p.Torn (g.func f) →
        p.selects (g.func f) = true ∧ p.selects ((g.tagModule m).func f) = false)) ∧
    (∃ new, (g.tagModule m).func f =
        { g.func f with metadata := (g.func f).metadata ++ new } ∧
      Tags.Fresh (g.func f).metadata (Blank.words <| Func.annotation (g.func f)) new) ∧
    (g.tagModule m).tagModule m = g.tagModule m := by
  rw [(tagged_tagModule g m).func f, if_pos hf]
  refine ⟨fun p => ⟨p.passCount_tagged _, ⟨fun hne => ?_, fun h heq => ?_⟩, fun h => h.selects⟩, ?_,
    tagModule_tagModule g m⟩
  · exact Classical.byContradiction fun h => hne (Policy.selects_tagged h)
  · rw [h.selects.1, h.selects.2] at heq
    cases heq
  · obtain ⟨new, heq, hnew⟩ := Tags.exists_fresh (g.func f).metadata
      (Blank.words <| Func.annotation (g.func f))
    exact ⟨new, by rw [Func.tagged_eq, heq], hnew⟩

/-- A function whose metadata ask for substitution and whose annotation forbids it. -/
def tornGraph : Graph :=
  let fn : Func := { metadata := [text "sub"], annotation := text "a nosub a", blocks := [⟨0⟩] }
  (((({} : Graph).newModule.1.newFunc fn).1).addFunc ⟨0⟩ ⟨0⟩)

theorem tornGraph_tagModule_changes :
    ({} : Policy).selects (tornGraph.func ⟨0⟩) = true ∧
    ({} : Policy).selects ((tornGraph.tagModule ⟨0⟩).func ⟨0⟩) = false := by
  have hf : (⟨0⟩ : FuncId) ∈ (tornGraph.module ⟨0⟩).funcs := by decide
  obtain ⟨hpolicy, -⟩ := tagModule_changes hf
  obtain ⟨-, -, htorn⟩ := hpolicy {}
  exact htorn ⟨by decide, by decide, by decide, by decide +kernel⟩

end Graph
end Disguise
