import Disguise.Proofs.Cutting
import Disguise.Proofs.Quoting
import Disguise.Proofs.Results
import Disguise.Syntax.Draft
import Disguise.Syntax.Printer
import Mathlib.Data.List.TakeDrop

/-!
What readers take off a line. A printed piece ends where a byte follows that cannot belong to it,
so the reader of the piece finds all of it and leaves what is behind.
-/
namespace Disguise.Syntax
open Bytes

/-- A nonempty text of the bytes that names are made of. -/
structure IsIdent (s : Bytes) : Prop where
  nonempty : s ≠ []
  bytes : ∀ b ∈ s, Reader.isIdentByte b

theorem isIdent_of_all {s : Bytes} (hne : s.isEmpty = false) (h : s.all Reader.isIdentByte) :
    IsIdent s :=
  ⟨by simpa using hne, List.all_eq_true.1 h⟩

namespace Reader
variable {α β : Type}

/-- The reader gives `a` and leaves `rest`. -/
def Takes (r : Reader α) (s : Bytes) (a : α) (rest : Bytes) : Prop := r s = .ok (a, rest)

/-- No name goes on in the text. -/
def Stops (s : Bytes) : Prop := ∀ b ∈ s.head?, isIdentByte b = false

theorem stops_cons {b : UInt8} {s : Bytes} (h : isIdentByte b = false) : Stops (b :: s) := by
  simpa [Stops] using h

/-- No name goes on in the text, and no blank begins it. -/
def Behind (s : Bytes) : Prop := ∀ b ∈ s.head?, isIdentByte b = false ∧ isSpace b = false

theorem behind_nil : Behind [] := by simp [Behind]

theorem behind_cons {b : UInt8} {s : Bytes} :
    Behind (b :: s) ↔ isIdentByte b = false ∧ isSpace b = false := by
  simp [Behind]

theorem Behind.stops {s : Bytes} (h : Behind s) : Stops s := fun b hb => (h b hb).1

theorem Behind.dropWhile {s : Bytes} (h : Behind s) : s.dropWhile isSpace = s := by
  cases s with
  | nil => rfl
  | cons b s =>
    obtain ⟨-, hb⟩ := behind_cons.1 h
    simp [hb]

theorem isSpace_of_isIdentByte {b : UInt8} (h : isIdentByte b) : isSpace b = false := by
  unfold isSpace
  rw [Bool.or_eq_false_iff, decide_eq_false_iff_not, decide_eq_false_iff_not]
  constructor
  · rintro rfl
    revert h
    decide
  · rintro rfl
    revert h
    decide

/-- A name begins with no blank. -/
theorem dropWhile_ident {name : Bytes} (h : IsIdent name) (s : Bytes) :
    (name ++ s).dropWhile isSpace = name ++ s := by
  cases name with
  | nil => exact absurd rfl h.nonempty
  | cons b name =>
    have hb := isSpace_of_isIdentByte (h.bytes b (by simp))
    simp [hb]

theorem bind_run_eq_ok {r : Reader α} {k : α → Reader β} {s t : Bytes} {b : β} :
    (r >>= k) s = .ok (b, t) ↔ ∃ a u, r s = .ok (a, u) ∧ k a u = .ok (b, t) := by
  change StateT.bind r k s = _ ↔ _
  unfold StateT.bind
  rw [Results.bind_eq_ok, Prod.exists]

theorem pure_run_eq_ok {a b : α} {s t : Bytes} :
    (pure a : Reader α) s = .ok (b, t) ↔ a = b ∧ s = t := by
  change Except.ok (a, s) = _ ↔ _
  rw [Except.ok.injEq, Prod.mk.injEq]

theorem atEnd_eq_ok {s t : Bytes} {b : Bool} :
    atEnd s = .ok (b, t) ↔ s.isEmpty = b ∧ s = t :=
  pure_run_eq_ok

theorem Takes.bind {r : Reader α} {k : α → Reader β} {s t u : Bytes} {a : α} {b : β}
    (h : Takes r s a t) (hk : Takes (k a) t b u) : Takes (r >>= k) s b u :=
  bind_run_eq_ok.2 ⟨a, t, h, hk⟩

theorem takes_pure (a : α) (s : Bytes) : Takes (pure a) s a s := rfl

theorem takes_get (s : Bytes) : Takes get s s s := rfl

theorem takes_atEnd (s : Bytes) : Takes atEnd s s.isEmpty s := rfl

theorem takes_peek (b : UInt8) (s : Bytes) : Takes peek (b :: s) b (b :: s) := rfl

theorem takes_done : Takes done [] () [] := rfl

theorem takes_expect {b : UInt8} {s t : Bytes} (ht : s.dropWhile isSpace = t) :
    Takes (expect b) (b :: s) () t := by
  subst ht
  unfold expect
  apply (takes_get _).bind
  dsimp only
  rw [if_pos rfl]
  rfl

theorem span_ident {name s : Bytes} (hn : ∀ b ∈ name, isIdentByte b)
    (hs : Stops s) : (name ++ s).span isIdentByte = (name, s) := by
  rw [List.span_eq_takeWhile_dropWhile, List.takeWhile_append_of_pos hn,
    List.dropWhile_append_of_pos hn]
  cases s with
  | nil => simp
  | cons b s =>
    have hb : isIdentByte b = false := hs b rfl
    simp [hb]

theorem takes_ident {name s t : Bytes} (hn : IsIdent name) (hs : Stops s)
    (ht : s.dropWhile isSpace = t) :
    Takes ident (name ++ s) name t := by
  subst ht
  unfold ident
  apply (takes_get _).bind
  rw [span_ident hn.bytes hs]
  dsimp only
  rw [if_neg (by simpa using hn.nonempty)]
  rfl

theorem takes_type {bits : Int} {s t : Bytes} (hb : Word.goodWidth bits) (hs : Stops s)
    (ht : s.dropWhile isSpace = t) :
    Takes type (byte 'i' :: decimal bits ++ s) bits t := by
  simp only [Word.goodWidth, Bool.and_eq_true, decide_eq_true_eq] at hb
  have hname : IsIdent (byte 'i' :: decimal bits) := by
    constructor
    · simp
    · intro b hmem
      rcases List.mem_cons.1 hmem with rfl | hmem
      · rfl
      · rw [decimal, if_neg (by omega)] at hmem
        exact isIdentByte_of_mem_digits (by omega) (by omega) b hmem
  unfold type
  apply (takes_ident hname hs ht).bind
  dsimp only
  rw [Numeral.decimal_decimal (by omega) hb.2]
  dsimp only
  rw [if_pos (by simp [Word.goodWidth, hb])]
  rfl

theorem takes_quoted [Unicode] {x s t : Bytes} (ht : s.dropWhile isSpace = t) :
    Takes quoted (Quoted.quote x ++ s) x t := by
  have hun := Quoted.unquote?_quote x
  subst ht
  unfold Quoted.quote at hun ⊢
  rw [List.cons_append] at hun
  unfold quoted
  apply (takes_get _).bind
  rw [List.cons_append, List.cons_append, List.append_assoc]
  dsimp only
  rw [if_neg (by simp), List.singleton_append, closing_quote]
  dsimp only
  rw [hun]
  rfl

/-- What is printed for an item begins with a byte that is neither a blank nor the given one. -/
def Begins (close : UInt8) (s : Bytes) : Prop := ∃ b t, s = b :: t ∧ b ≠ close ∧ isSpace b = false

theorem Begins.dropWhile {close : UInt8} {s : Bytes} (h : Begins close s) (t : Bytes) :
    (s ++ t).dropWhile isSpace = s ++ t := by
  obtain ⟨b, u, rfl, -, hb⟩ := h
  simp [hb]

theorem Begins.dropWhile_self {close : UInt8} {s : Bytes} (h : Begins close s) :
    s.dropWhile isSpace = s := by
  have hs := h.dropWhile []
  rwa [List.append_nil] at hs

theorem Begins.join {close : UInt8} {s : Bytes} (h : Begins close s) (sep : Bytes)
    (ps : List Bytes) : Begins close (join sep (s :: ps)) := by
  obtain ⟨b, u, rfl, hne, hb⟩ := h
  cases ps with
  | nil => exact ⟨b, u, join_singleton _ _, hne, hb⟩
  | cons p ps => exact ⟨b, _, join_cons_cons _ _ _ _, hne, hb⟩

theorem length_le_join {close : UInt8} {ps : List Bytes} (sep : Bytes)
    (h : ∀ p ∈ ps, Begins close p) : ps.length ≤ (join sep ps).length := by
  induction ps with
  | nil => simp
  | cons p ps ih =>
    obtain ⟨b, u, rfl, -, -⟩ := h p (by simp)
    cases ps with
    | nil => simp [join_singleton]
    | cons q ps =>
      have hle := ih fun p hp => h p (by simp [hp])
      rw [join_cons_cons]
      simp only [List.length_cons, List.length_append] at hle ⊢
      omega

section Lists
variable {item : Reader α} {print : α → Bytes}

theorem behind_comma (s : Bytes) : Behind (comma ++ s) := by
  change Behind (byte ',' :: 32 :: s)
  rw [behind_cons]
  decide

theorem dropWhile_comma {close : UInt8} {s t : Bytes} (h : Begins close s) :
    ((32 : UInt8) :: (s ++ t)).dropWhile isSpace = s ++ t := by
  rw [List.dropWhile_cons, if_pos (by decide), h.dropWhile]

/-- A list up to a closing byte. -/
theorem takes_listUntil {close : UInt8} {xs : List α} {fuel : Nat} {s : Bytes}
    (hclose : Behind [close]) (hcomma : byte ',' ≠ close)
    (hitem : ∀ x ∈ xs, ∀ t, Behind t → Takes item (print x ++ t) x t)
    (hbegin : ∀ x ∈ xs, Begins close (print x)) (hfuel : xs.length ≤ fuel) :
    Takes (listUntil close item fuel) (join comma (xs.map print) ++ close :: s) xs
      (close :: s) := by
  have hbehind : Behind (close :: s) := by
    rw [behind_cons] at hclose ⊢
    exact hclose
  have hend : ∀ n, Takes (listUntil close item n) (close :: s) [] (close :: s) := by
    intro n
    cases n with
    | zero => exact takes_pure _ _
    | succ n =>
      unfold listUntil
      apply (takes_peek _ _).bind
      rw [if_pos rfl]
      exact takes_pure _ _
  induction xs generalizing fuel with
  | nil => exact hend fuel
  | cons x xs ih =>
    obtain ⟨n, rfl⟩ : ∃ n, fuel = n + 1 :=
      ⟨fuel - 1, by simp only [List.length_cons] at hfuel; omega⟩
    have hx := hitem x (by simp)
    obtain ⟨b, u, hprint, hne, hspace⟩ := hbegin x (by simp)
    have hhead : ∀ t, Takes peek (print x ++ t) b (print x ++ t) := by
      intro t
      rw [hprint]
      exact takes_peek _ _
    unfold listUntil
    cases xs with
    | nil =>
      rw [List.map_cons, List.map_nil, join_singleton]
      apply (hhead _).bind
      rw [if_neg hne]
      apply (hx _ hbehind).bind
      apply (takes_peek _ _).bind
      rw [if_neg (by simp)]
      exact (hend n).bind (takes_pure _ _)
    | cons y ys =>
      rw [List.map_cons, List.map_cons, join_cons_cons, List.append_assoc, List.append_assoc]
      apply (hhead _).bind
      rw [if_neg hne]
      apply (hx _ (behind_comma _)).bind
      apply (takes_peek (byte ',') _).bind
      rw [if_pos hcomma]
      have hy := (hbegin y (by simp)).join comma (ys.map print)
      apply (takes_expect (dropWhile_comma hy)).bind
      have hitem' := fun z (hz : z ∈ y :: ys) => hitem z (List.mem_cons_of_mem x hz)
      have hbegin' := fun z (hz : z ∈ y :: ys) => hbegin z (List.mem_cons_of_mem x hz)
      apply (ih hitem' hbegin' (by simpa using hfuel)).bind
      exact takes_pure _ _

/-- A list up to the end of the line. -/
theorem takes_listToEnd {close : UInt8} {xs : List α} {fuel : Nat}
    (hitem : ∀ x ∈ xs, ∀ t, Behind t → Takes item (print x ++ t) x t)
    (hbegin : ∀ x ∈ xs, Begins close (print x)) (hfuel : xs.length ≤ fuel) :
    Takes (listToEnd item fuel) (join comma (xs.map print)) xs [] := by
  have hend : ∀ n, Takes (listToEnd item n) [] [] [] := by
    intro n
    cases n with
    | zero => exact takes_pure _ _
    | succ n => exact (takes_atEnd _).bind (takes_pure _ _)
  induction xs generalizing fuel with
  | nil => exact hend fuel
  | cons x xs ih =>
    obtain ⟨n, rfl⟩ : ∃ n, fuel = n + 1 :=
      ⟨fuel - 1, by simp only [List.length_cons] at hfuel; omega⟩
    have hx := hitem x (by simp)
    obtain ⟨b, u, hprint, hne, hspace⟩ := hbegin x (by simp)
    unfold listToEnd
    apply (takes_atEnd _).bind
    cases xs with
    | nil =>
      rw [List.map_cons, List.map_nil, join_singleton, if_neg (by simp [hprint])]
      have hone := hx [] behind_nil
      rw [List.append_nil] at hone
      apply hone.bind
      apply (takes_atEnd _).bind
      exact (hend n).bind (takes_pure _ _)
    | cons y ys =>
      rw [List.map_cons, List.map_cons, join_cons_cons, if_neg (by simp [hprint])]
      apply (hx _ (behind_comma _)).bind
      apply (takes_atEnd _).bind
      have hy := (hbegin y (by simp)).join comma (ys.map print)
      have hskip := @dropWhile_comma _ _ [] hy
      rw [List.append_nil] at hskip
      apply (takes_expect hskip).bind
      have hitem' := fun z (hz : z ∈ y :: ys) => hitem z (List.mem_cons_of_mem x hz)
      have hbegin' := fun z (hz : z ∈ y :: ys) => hbegin z (List.mem_cons_of_mem x hz)
      apply (ih hitem' hbegin' (by simpa using hfuel)).bind
      exact takes_pure _ _

end Lists

end Reader
end Disguise.Syntax
