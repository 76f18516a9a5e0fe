import Disguise.Proofs.Readers
import Disguise.Proofs.WellFormed

/-!
Header lines read back. What stands between the parts of a header is fixed, so the reading follows
the printing part by part.
-/
namespace Disguise
open Bytes

/-- The names of a function and of its parts can be read, and no param is taken for a result. -/
structure Graph.Named (g : Graph) (f : FuncId) : Prop where
  name : Syntax.IsIdent (g.func f).name
  params : ∀ p ∈ (g.func f).params, Syntax.IsIdent (g.param p).name
  paramStart : ∀ p ∈ (g.func f).params, (g.param p).name.head?.any Syntax.Reader.isDigitByte = false
  blocks : ∀ b ∈ (g.func f).blocks, Syntax.IsIdent (g.block b).name

namespace Syntax
open Reader

/-- A param in a header. -/
def printParam (p : Bytes × Int) : Bytes := text "i" ++ decimal p.2 ++ text " %" ++ p.1

theorem takes_param {p : Bytes × Int} (hname : IsIdent p.1)
    (hstart : p.1.head?.any isDigitByte = false) (hbits : Word.goodWidth p.2) {s : Bytes}
    (hs : Behind s) : Takes param (printParam p ++ s) p s := by
  have hprint : printParam p ++ s = byte 'i' :: decimal p.2 ++ 32 :: byte '%' :: (p.1 ++ s) := by
    simp only [printParam, List.append_assoc, List.cons_append]
    rfl
  rw [hprint]
  unfold param
  apply (takes_type hbits (stops_cons rfl) (t := byte '%' :: (p.1 ++ s)) rfl).bind
  apply (takes_expect (dropWhile_ident hname s)).bind
  apply (takes_ident hname hs.stops hs.dropWhile).bind
  rw [if_neg (by simp [hstart])]
  exact takes_pure _ _

theorem begins_printParam (p : Bytes × Int) : Begins (byte ')') (printParam p) := by
  refine ⟨byte 'i', decimal p.2 ++ text " %" ++ p.1, ?_, by decide, by decide⟩
  simp only [printParam, List.append_assoc]
  rfl

theorem begins_quote [Unicode] (s : Bytes) : Begins (byte ')') (Quoted.quote s) :=
  ⟨Quoted.mark, _, rfl, by decide, by decide⟩

theorem isIdent_annotate : IsIdent (text "annotate") :=
  isIdent_of_all rfl rfl

theorem isIdent_metadata : IsIdent (text "metadata") :=
  isIdent_of_all rfl rfl

theorem takes_tag_annotate [Unicode] (fuel : Nat) (a : Attributes) (x : Bytes) {s t : Bytes}
    (ht : s.dropWhile isSpace = t) :
    Takes (tag fuel a) (text "annotate" ++ byte '(' :: (Quoted.quote x ++ byte ')' :: s))
      { a with annotation := x } t := by
  unfold tag
  apply (takes_ident isIdent_annotate (stops_cons rfl) rfl).bind
  rw [if_pos rfl]
  apply (takes_expect ((begins_quote x).dropWhile _)).bind
  apply (takes_quoted (t := byte ')' :: s) rfl).bind
  apply (takes_expect ht).bind
  exact takes_pure _ _

theorem takes_tag_metadata [Unicode] {fuel : Nat} (a : Attributes) {xs : List Bytes} (hne : xs ≠ [])
    (hfuel : xs.length ≤ fuel) {s t : Bytes} (ht : s.dropWhile isSpace = t) :
    Takes (tag fuel a)
      (text "metadata" ++ byte '(' :: (join comma (xs.map Quoted.quote) ++ byte ')' :: s))
      { a with metadata := xs.reverse ++ a.metadata } t := by
  unfold tag
  apply (takes_ident isIdent_metadata (stops_cons rfl) rfl).bind
  rw [if_neg (by decide), if_pos rfl]
  have hbegins : Begins (byte ')') (join comma (xs.map Quoted.quote)) := by
    cases xs with
    | nil => exact absurd rfl hne
    | cons x xs => exact (begins_quote x).join _ _
  have hitem : ∀ x ∈ xs, ∀ t, Behind t → Takes quoted (Quoted.quote x ++ t) x t :=
    fun x _ t ht => takes_quoted ht.dropWhile
  have hclose : Behind [byte ')'] := behind_cons.2 (by decide)
  apply (takes_expect (hbegins.dropWhile _)).bind
  apply (takes_listUntil hclose (by decide) hitem (fun x _ => begins_quote x) hfuel).bind
  apply (takes_expect ht).bind
  exact takes_pure _ _

theorem takes_attributes_end (fuel : Nat) (a : Attributes) : Takes (attributes fuel a) [] a [] := by
  cases fuel with
  | zero => exact takes_pure _ _
  | succ fuel => exact (takes_atEnd _).bind (takes_pure _ _)

theorem takes_attributes_brace (fuel : Nat) (a : Attributes) (s : Bytes) :
    Takes (attributes fuel a) (openBrace :: s) a (openBrace :: s) := by
  cases fuel with
  | zero => exact takes_pure _ _
  | succ fuel =>
    unfold attributes
    apply (takes_atEnd _).bind
    rw [if_neg (by simp)]
    apply (takes_peek _ _).bind
    rw [if_pos rfl]
    exact takes_pure _ _

theorem takes_attributes_tag {fuel : Nat} {a a' e : Attributes} {b : UInt8} {s t u : Bytes}
    (hb : b ≠ openBrace) (h : Takes (tag fuel a) (b :: s) a' t)
    (hrest : Takes (attributes fuel a') t e u) : Takes (attributes (fuel + 1) a) (b :: s) e u := by
  unfold attributes
  apply (takes_atEnd _).bind
  rw [if_neg (by simp)]
  apply (takes_peek _ _).bind
  rw [if_neg hb]
  exact h.bind hrest

def printNote [Unicode] (note : Bytes) : Bytes :=
  if note.isEmpty then [] else text " annotate(" ++ Quoted.quote note ++ text ")"

def printMetadata [Unicode] (metadata : List Bytes) : Bytes :=
  if metadata.isEmpty then []
  else text " metadata(" ++ join comma (metadata.map Quoted.quote) ++ text ")"

/-- What stands behind the attributes of a function. -/
def printBrace (hasBody : Bool) : Bytes := if hasBody then text " \x7b" else []

theorem takes_attributes_brace_text (fuel : Nat) (a : Attributes) (hasBody : Bool) :
    Takes (attributes fuel a) ((printBrace hasBody).dropWhile isSpace) a
      ((printBrace hasBody).dropWhile isSpace) := by
  cases hasBody with
  | false => exact takes_attributes_end _ _
  | true => exact takes_attributes_brace _ _ _

theorem takes_attributes_metadata [Unicode] {fuel : Nat} (a : Attributes) {metadata : List Bytes}
    (hasBody : Bool) (hfuel : metadata.length < fuel) :
    Takes (attributes fuel a) ((printMetadata metadata ++ printBrace hasBody).dropWhile isSpace)
      { a with metadata := metadata.reverse ++ a.metadata }
      ((printBrace hasBody).dropWhile isSpace) := by
  unfold printMetadata
  split
  · rename_i hempty
    rw [List.isEmpty_iff] at hempty
    subst hempty
    exact takes_attributes_brace_text _ _ _
  · rename_i hne
    obtain ⟨n, rfl⟩ : ∃ n, fuel = n + 1 := ⟨fuel - 1, by omega⟩
    simp only [List.append_assoc]
    have hsome : metadata ≠ [] := by simpa using hne
    apply takes_attributes_tag (by decide) (takes_tag_metadata a hsome (by omega) rfl)
    exact takes_attributes_brace_text _ _ _

theorem takes_attributes [Unicode] {fuel : Nat} (note : Bytes) {metadata : List Bytes}
    (hasBody : Bool) (hfuel : metadata.length + (if note.isEmpty then 0 else 1) < fuel) :
    Takes (attributes fuel {})
      ((printNote note ++ (printMetadata metadata ++ printBrace hasBody)).dropWhile
        isSpace) { annotation := note, metadata := metadata.reverse }
      ((printBrace hasBody).dropWhile isSpace) := by
  unfold printNote
  have hmeta : ∀ n a, metadata.length < n → a.metadata = [] →
      Takes (attributes n a) ((printMetadata metadata ++ printBrace hasBody).dropWhile isSpace)
      { annotation := a.annotation, metadata := metadata.reverse }
      ((printBrace hasBody).dropWhile isSpace) := by
    intro n a hn ha
    have h := takes_attributes_metadata a hasBody hn
    rw [ha, List.append_nil] at h
    exact h
  split
  · rename_i hempty
    rw [List.isEmpty_iff] at hempty
    subst hempty
    exact hmeta fuel {} (by simpa using hfuel) rfl
  · rename_i hne
    rw [if_neg hne] at hfuel
    obtain ⟨n, rfl⟩ : ∃ n, fuel = n + 1 := ⟨fuel - 1, by omega⟩
    simp only [List.append_assoc]
    exact takes_attributes_tag (by decide) (takes_tag_annotate n {} note rfl)
      (hmeta n _ (by omega) rfl)

/-- What the header of a function says. -/
def headerOf (g : Graph) (fn : Func) : Header where
  name := fn.name
  external := fn.external
  params := fn.params.map fun p => ((g.param p).name, (g.param p).bits)
  retBits := fn.retBits
  annotation := fn.annotation
  metadata := fn.metadata
  hasBody := !fn.isDeclaration

def keyword (hasBody : Bool) : Bytes := if hasBody then text "func" else text "declare"

theorem isIdent_keyword (hasBody : Bool) : IsIdent (keyword hasBody) := by
  cases hasBody with
  | false => exact isIdent_of_all rfl rfl
  | true => exact isIdent_of_all rfl rfl

/-- A header from the name of the function on. -/
def printSignature [Unicode] (h : Header) : Bytes :=
  h.name ++ byte '(' :: (join comma (h.params.map printParam) ++ byte ')' :: 32 ::
    (byte 'i' :: decimal h.retBits ++
      (printNote h.annotation ++ (printMetadata h.metadata ++ printBrace h.hasBody))))

theorem printHeader_eq [Unicode] (g : Graph) (fn : Func) :
    printHeader g fn ++ printBrace (!fn.isDeclaration) =
      (if fn.external then text "external" ++ [32] else []) ++
        (keyword (!fn.isDeclaration) ++ 32 :: printSignature (headerOf g fn)) := by
  have hparams : (headerOf g fn).params.map printParam = fn.params.map fun p =>
      text "i" ++ decimal (g.param p).bits ++ text " %" ++ (g.param p).name := by
    simp [headerOf, printParam]
  have hexternal : text "external " = text "external" ++ [32] := rfl
  have hkeyword : (if fn.isDeclaration then text "declare " else text "func ") =
      keyword (!fn.isDeclaration) ++ [32] := by
    cases fn.isDeclaration <;> rfl
  have hopen : text "(" = [byte '('] := rfl
  have hclose : text ") i" = [byte ')', 32, byte 'i'] := rfl
  unfold printHeader printSignature
  rw [hparams, hexternal, hkeyword, hopen, hclose]
  simp only [headerOf, printNote, printMetadata, List.append_assoc, List.cons_append,
    List.nil_append]

/-- The rest of a header is longer than the list of its attributes. -/
theorem count_le_attributes [Unicode] (note : Bytes) (metadata : List Bytes) (hasBody : Bool) :
    metadata.length + (if note.isEmpty then 0 else 1) ≤ ((printNote note ++
      (printMetadata metadata ++ printBrace hasBody)).dropWhile isSpace).length := by
  have hmeta : metadata.length ≤ ((printMetadata metadata ++ printBrace hasBody).dropWhile
      isSpace).length := by
    unfold printMetadata
    split
    · rename_i hempty
      simp [List.isEmpty_iff.1 hempty]
    · have hle := @length_le_join (byte ')') (metadata.map Quoted.quote) comma fun p hp => by
        obtain ⟨q, -, rfl⟩ := List.mem_map.1 hp
        exact begins_quote q
      have hskip : text " metadata(" = 32 :: text "metadata(" := rfl
      have hstay : text "metadata(" = byte 'm' :: text "etadata(" := rfl
      rw [hskip, List.append_assoc, List.append_assoc, List.cons_append, List.dropWhile_cons,
        if_pos (by decide), hstay, List.cons_append, List.dropWhile_cons, if_neg (by decide)]
      simp only [List.length_map, List.length_cons, List.length_append] at hle ⊢
      omega
  unfold printNote
  split
  · rename_i hempty
    rw [List.nil_append]
    exact hmeta
  · have hskip : text " annotate(" = 32 :: byte 'a' :: text "nnotate(" := rfl
    have hle := Nat.le_trans hmeta (List.dropWhile_sublist isSpace).length_le
    rw [hskip, List.append_assoc, List.append_assoc, List.cons_append, List.cons_append,
      List.dropWhile_cons, if_pos (by decide), List.dropWhile_cons, if_neg (by decide)]
    simp only [List.length_cons, List.length_append] at hle ⊢
    omega

/-- What `header` reads behind the keywords. -/
def signature (external hasBody : Bool) : Reader Header := do
  let name ← ident
  expect (byte '(')
  let params ← listUntil (byte ')') param ((← get).length + 1)
  expect (byte ')')
  let retBits ← type
  let a ← attributes ((← get).length + 1) {}
  if hasBody then expect openBrace
  done
  pure {
    name, external, params, retBits, hasBody
    annotation := a.annotation, metadata := a.metadata.reverse }

theorem header_eq : header = (do
    let first ← ident
    let word ← if first = text "external" then ident else pure first
    if word ≠ text "func" ∧ word ≠ text "declare" then fail (.noKeyword word)
    signature (first = text "external") (word = text "func")) := by
  unfold header signature
  simp only [decide_eq_true_eq]

theorem takes_signature [Unicode] {h : Header} (hname : IsIdent h.name)
    (hparams : ∀ p ∈ h.params, IsIdent p.1 ∧ p.1.head?.any isDigitByte = false ∧
      Word.goodWidth p.2) (hret : Word.goodWidth h.retBits) :
    Takes (signature h.external h.hasBody) (printSignature h) h [] := by
  have hlist : (join comma (h.params.map printParam) ++ byte ')' :: 32 :: (byte 'i' ::
      decimal h.retBits ++ (printNote h.annotation ++ (printMetadata h.metadata ++
        printBrace h.hasBody)))).dropWhile isSpace = join comma (h.params.map printParam) ++
      byte ')' :: 32 :: (byte 'i' :: decimal h.retBits ++ (printNote h.annotation ++
        (printMetadata h.metadata ++ printBrace h.hasBody))) := by
    cases h.params with
    | nil => rfl
    | cons p ps => exact ((begins_printParam p).join _ _).dropWhile _
  have hbehind : Stops (printNote h.annotation ++ (printMetadata h.metadata ++
      printBrace h.hasBody)) := by
    unfold printNote printMetadata printBrace
    split <;> split <;> split <;> first | exact stops_cons rfl | simp [Stops]
  have hcount : h.params.length ≤ (join comma (h.params.map printParam)).length := by
    have hle := @length_le_join (byte ')') (h.params.map printParam) comma fun p hp => by
      obtain ⟨q, -, rfl⟩ := List.mem_map.1 hp
      exact begins_printParam q
    rwa [List.length_map] at hle
  have hclose : Behind [byte ')'] := behind_cons.2 (by decide)
  have hparam : ∀ p ∈ h.params, ∀ t, Behind t → Takes param (printParam p ++ t) p t := by
    intro p hp t ht
    obtain ⟨hident, hletter, hwidth⟩ := hparams p hp
    exact takes_param hident hletter hwidth ht
  unfold signature printSignature
  apply (takes_ident hname (stops_cons rfl) rfl).bind
  apply (takes_expect hlist).bind
  apply (takes_get _).bind
  apply (takes_listUntil hclose (by decide) hparam (fun p _ => begins_printParam p) (by
    simp only [List.length_append]
    omega)).bind
  apply (takes_expect (by rfl)).bind
  apply (takes_type hret hbehind rfl).bind
  apply (takes_get _).bind
  apply (takes_attributes h.annotation h.hasBody (by
    have := count_le_attributes h.annotation h.metadata h.hasBody
    omega)).bind
  cases h with
  | mk name external params retBits annotation metadata hasBody =>
    dsimp only
    cases hasBody with
    | false =>
      rw [if_neg (by simp), List.reverse_reverse]
      exact takes_done.bind (takes_pure _ _)
    | true =>
      rw [if_pos rfl, List.reverse_reverse]
      exact (takes_expect (s := []) rfl).bind (takes_done.bind (takes_pure _ _))

theorem takes_header [Unicode] {h : Header} (hname : IsIdent h.name)
    (hparams : ∀ p ∈ h.params, IsIdent p.1 ∧ p.1.head?.any isDigitByte = false ∧
      Word.goodWidth p.2) (hret : Word.goodWidth h.retBits) :
    Takes header ((if h.external then text "external" ++ [32] else []) ++
      (keyword h.hasBody ++ 32 :: printSignature h)) h [] := by
  have hsig : (32 :: printSignature h).dropWhile isSpace = printSignature h := by
    rw [List.dropWhile_cons, if_pos (by decide)]
    exact dropWhile_ident hname _
  have hkeyword : Takes ident (keyword h.hasBody ++ 32 :: printSignature h) (keyword h.hasBody)
      (printSignature h) := takes_ident (isIdent_keyword _) (stops_cons rfl) hsig
  have hknown : ¬ (keyword h.hasBody ≠ text "func" ∧ keyword h.hasBody ≠ text "declare") := by
    cases h.hasBody <;> decide
  have hbody : decide (keyword h.hasBody = text "func") = h.hasBody := by
    cases h.hasBody <;> decide
  have htail := takes_signature hname hparams hret
  rw [header_eq]
  cases hexternal : h.external with
  | false =>
    have hnot : keyword h.hasBody ≠ text "external" := by
      cases h.hasBody <;> decide
    rw [if_neg (by simp), List.nil_append]
    apply hkeyword.bind
    rw [if_neg hnot]
    apply (takes_pure _ _).bind
    dsimp only
    rw [if_neg hknown, hbody, decide_eq_false hnot, ← hexternal]
    exact htail
  | true =>
    rw [if_pos rfl, List.append_assoc, List.singleton_append]
    have hnext : (32 :: (keyword h.hasBody ++ 32 :: printSignature h)).dropWhile isSpace =
        keyword h.hasBody ++ 32 :: printSignature h := by
      rw [List.dropWhile_cons, if_pos (by decide)]
      exact dropWhile_ident (isIdent_keyword _) _
    apply (takes_ident (isIdent_of_all rfl rfl) (stops_cons rfl) hnext).bind
    rw [if_pos rfl]
    apply hkeyword.bind
    dsimp only
    rw [if_neg hknown, hbody, decide_eq_true rfl, ← hexternal]
    exact htail

end Syntax
end Disguise
