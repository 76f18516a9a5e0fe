import Disguise.Proofs.Respelling
import Disguise.Syntax.Scanner

/-!
Reading with a cursor and reading a list of bytes. A scanner follows a reader: in front of the same
rest of a line it gives the same value or notes the same fault, and behind a fault it leaves the
cursor as it is.
-/
namespace Disguise.Syntax
open Bytes Results

/-- A cursor without a fault, with this rest of the line in front of it. -/
def Cursor.before (number : Nat) (line rest : Bytes) : Cursor :=
  { number, line, pos := line.length - rest.length }

namespace Reader
variable {σ : Type}

/-- Steps as long as they are wanted. Each is told what is left of the fuel. -/
def rounds (more : Reader Bool) (step : Nat → σ → Reader σ) : Nat → σ → Reader σ
  | 0, s => pure s
  | n + 1, s => do
    if ← more then rounds more step n (← step n s) else pure s

theorem ident_run (s : Bytes) : ident s =
    if (s.takeWhile isIdentByte).isEmpty then .error (.noIdentifier s.length)
    else .ok (s.takeWhile isIdentByte, (s.dropWhile isIdentByte).dropWhile isSpace) := by
  show (if (s.span isIdentByte).1.isEmpty then fail (.noIdentifier s.length) else do
    set (s.span isIdentByte).2
    skipBlanks
    pure (s.span isIdentByte).1 : Reader Bytes) s = _
  rw [List.span_eq_takeWhile_dropWhile]
  split <;> rfl

/-- A comma, unless the list ends here. -/
def commaUnless (close : UInt8) : Reader Unit := do
  if (← peek) ≠ close then expect (byte ',')

/-- A list up to a closing byte, item by item. -/
theorem listUntil_eq_rounds {α : Type} (close : UInt8) (item : Reader α) (n : Nat) (l : List α) :
    (do let rest ← listUntil close item n; pure (l ++ rest)) =
      rounds (do return (← peek) ≠ close)
        (fun _ l => do
          let a ← item
          commaUnless close
          pure (l ++ [a])) n l := by
  induction n generalizing l with
  | zero =>
    show (pure (l ++ []) : Reader (List α)) = pure l
    rw [List.append_nil]
  | succ n ih =>
    rw [listUntil, rounds, bind_assoc, bind_assoc]
    refine congrArg _ (funext fun b => ?_)
    by_cases hb : b = close
    · simp [hb]
    · simp only [hb, if_false, pure_bind, ne_eq, not_false_eq_true, decide_true, if_true,
        bind_assoc, ← ih]
      refine congrArg _ (funext fun a => ?_)
      rw [commaUnless, bind_assoc]
      refine congrArg _ (funext fun c => ?_)
      by_cases hc : c = close
      · simp [hc]
      · simp [hc]

theorem get_run {α : Type} (k : Bytes → Reader α) (s : Bytes) : (get >>= k) s = k s s := rfl

theorem quoted_of_ne {b : UInt8} {rest : Bytes} (hb : b ≠ Quoted.mark) :
    quoted (b :: rest) = .error .noString := by
  rw [quoted, get_run]
  dsimp only
  rw [if_pos hb]
  rfl

/-- No mark closes the text. -/
theorem quoted_open {rest : Bytes} (h : closing [] rest = none) :
    quoted (Quoted.mark :: rest) = .error .openString := by
  rw [quoted, get_run]
  simp only [h, if_neg (not_not_intro rfl)]
  rfl

/-- What stands between the marks is read as a whole. -/
theorem quoted_closed {rest body t : Bytes} (h : closing [] rest = some (body, t)) :
    quoted (Quoted.mark :: rest) = (Quoted.unquote? (Quoted.mark :: body)).elim
      (.error .badString) fun x => .ok (x, t.dropWhile isSpace) := by
  rw [quoted, get_run]
  simp only [h, if_neg (not_not_intro rfl)]
  cases Quoted.unquote? (Quoted.mark :: body) <;> rfl

/-- A list up to the end of the line, item by item. -/
theorem listToEnd_eq_rounds {α : Type} (item : Reader α) (n : Nat) (l : List α) :
    (do let rest ← listToEnd item n; pure (l ++ rest)) =
      rounds (do return !(← atEnd))
        (fun _ l => do
          let a ← item
          separator
          pure (l ++ [a])) n l := by
  induction n generalizing l with
  | zero =>
    show (pure (l ++ []) : Reader (List α)) = pure l
    rw [List.append_nil]
  | succ n ih =>
    rw [listToEnd, rounds, bind_assoc, bind_assoc]
    refine congrArg _ (funext fun b => ?_)
    cases b with
    | true => simp
    | false =>
      simp only [Bool.false_eq_true, if_false, pure_bind, Bool.not_false, if_true, bind_assoc,
        ← ih]
      refine congrArg _ (funext fun a => ?_)
      rw [separator, bind_assoc]
      refine congrArg _ (funext fun c => ?_)
      cases c <;> simp

theorem consumes_commaUnless (close : UInt8) : Consumes 0 (commaUnless close) := by
  unfold commaUnless
  refine consumes_peek.bind (n := 0) fun b => .ite ?_ (consumes_pure _)
  exact (consumes_expect _).mono (Nat.zero_le 1)

theorem consumes_listUntil {α : Type} {item : Reader α} (h : Consumes 0 item) (close : UInt8)
    (n : Nat) : Consumes 0 (listUntil close item n) := by
  induction n with
  | zero => exact consumes_pure []
  | succ n ih =>
    have hrest : ∀ a : α,
        Consumes 0 (do let rest ← listUntil close item n; pure (a :: rest)) :=
      fun a => ih.bind (n := 0) fun rest => consumes_pure _
    unfold listUntil
    refine consumes_peek.bind (n := 0) fun b => .ite (consumes_pure _) ?_
    refine h.bind (n := 0) fun a => consumes_peek.bind (n := 0) fun b => .ite ?_ (hrest a)
    exact ((consumes_expect _).mono (Nat.zero_le 1)).bind (n := 0) fun _ => hrest a

end Reader

namespace Scan
variable {α β σ : Type} {n number : Nat} {line : Bytes}

theorem bind_run (p : Scan α) (k : α → Scan β) (c : Cursor) :
    (p >>= k) c = p c >>= fun q => k q.1 q.2 := rfl

theorem get_run (k : Cursor → Scan α) (c : Cursor) : (get >>= k) c = k c c := rfl

theorem modify_run (f : Cursor → Cursor) (k : Unit → Scan α) (c : Cursor) :
    (modify f >>= k) c = k () (f c) := rfl

/-- Behind a fault the scanner gives this value and does nothing else. -/
def Idle (p : Scan α) (a : α) : Prop := ∀ c : Cursor, c.error.isSome → p c = .ok (a, c)

/-- Behind a fault the scanner gives some value and does nothing else. -/
def Inert (p : Scan α) : Prop := ∀ c : Cursor, c.error.isSome → ∃ a, p c = .ok (a, c)

section Behind
variable {p q : Scan α} {k : α → Scan β} {a : α} {b : β}

theorem Idle.inert (h : Idle p a) : Inert p := fun c hc => ⟨a, h c hc⟩

theorem Idle.bind (h : Idle p a) (hk : Idle (k a) b) : Idle (p >>= k) b := by
  intro c hc
  rw [bind_run, h c hc]
  exact hk c hc

/-- What is given behind a fault may matter to what follows. -/
theorem Idle.bind_inert (h : Idle p a) (hk : Inert (k a)) : Inert (p >>= k) := by
  intro c hc
  rw [bind_run, h c hc]
  exact hk c hc

theorem Inert.bind (h : Inert p) (hk : ∀ a, Inert (k a)) : Inert (p >>= k) := by
  intro c hc
  obtain ⟨a, ha⟩ := h c hc
  rw [bind_run, ha]
  exact hk a c hc

theorem idle_pure (a : α) : Idle (pure a) a := fun _ _ => rfl

theorem inert_pure (a : α) : Inert (pure a) := (idle_pure a).inert

theorem Inert.ite {P : Prop} [Decidable P] (h : Inert p) (h' : Inert q) :
    Inert (if P then p else q) := by
  split
  · exact h
  · exact h'

theorem inert_get : Inert get := fun c _ => ⟨c, rfl⟩

theorem idle_faulty : Idle faulty true := by
  intro c hc
  show Except.ok (c.error.isSome, c) = _
  rw [hc]

theorem idle_fail (fault : LineFault) : Idle (fail fault) () := by
  intro c hc
  obtain ⟨e, he⟩ := Option.isSome_iff_exists.1 hc
  show Except.ok ((), { c with error := c.error.or _ }) = _
  rw [he, Option.some_or, ← he]

theorem inert_atEnd : Inert atEnd := inert_get.bind fun _ => inert_pure _

/-- The usual guard of a scanner. -/
theorem idle_guard (h : Idle p a) : Idle (do if ← faulty then p else q) a := idle_faulty.bind h

theorem idle_char : Idle char 0 := idle_guard (idle_pure _)

theorem idle_expect (b : UInt8) : Idle (expect b) () := idle_guard (idle_pure _)

theorem idle_ident : Idle ident [] := idle_guard (idle_pure _)

theorem idle_quoted : Idle quoted [] := idle_guard (idle_pure _)

theorem idle_goesOn (close : UInt8) : Idle (goesOn close) false := idle_guard (idle_pure _)

variable {again : σ → Scan Bool} {round : σ → Scan σ}

/-- A loop that is not wanted behind a fault stops there. -/
theorem idle_repeatWhile (h : ∀ s, Idle (again s) false) {fuel : Nat} (hfuel : 0 < fuel) (s : σ) :
    Idle (repeatWhile again round fuel s) s := by
  obtain ⟨n, rfl⟩ := Nat.exists_eq_succ_of_ne_zero hfuel.ne'
  exact (h s).bind (idle_pure s)

theorem inert_loop (h : ∀ s, Idle (again s) false) (s : σ) : Inert (loop again round s) :=
  inert_get.bind fun _ => (idle_repeatWhile h (Nat.succ_pos _) s).inert

end Behind

/-- The two ways in which a reader and a scanner come out alike. -/
inductive Tracks (number : Nat) (line : Bytes) :
    Except LineFault (α × Bytes) → Except Crash (α × Cursor) → Prop
  | value {a : α} {t : Bytes} (left : t <:+ line) :
      Tracks number line (.ok (a, t)) (.ok (a, .before number line t))
  | fault {f : LineFault} {a : α} {c : Cursor} (noted : c.error = some (.inLine number line f)) :
      Tracks number line (.error f) (.ok (a, c))

theorem Tracks.bind {x : Except LineFault (α × Bytes)} {y : Except Crash (α × Cursor)}
    {k : α → Scan β} {l : α → Reader β} (h : Tracks number line x y)
    (hk : ∀ a t, x = .ok (a, t) → t <:+ line →
      Tracks number line (l a t) (k a (.before number line t)))
    (hi : ∀ a, Inert (k a)) :
    Tracks number line (x >>= fun q => l q.1 q.2) (y >>= fun q => k q.1 q.2) := by
  cases h with
  | value left => exact hk _ _ rfl left
  | @fault f a c noted =>
    obtain ⟨b, hb⟩ := hi a c (by rw [noted]; rfl)
    show Tracks number line (.error f) (k a c)
    rw [hb]
    exact .fault noted

/-- On the last `n` bytes of a line the scanner does what the reader does with what is left. -/
structure Agrees (n : Nat) (p : Scan α) (r : Reader α) : Prop where
  inert : Inert p
  tracks : ∀ number line s, s <:+ line → s.length ≤ n →
    Tracks number line (r s) (p (.before number line s))

section Agrees
variable {p q : Scan α} {r t : Reader α} {k : α → Scan β} {l : α → Reader β}
  {P : α → Prop}

theorem Agrees.run_ok (h : Agrees n p r) (number : Nat) {s u : Bytes} {a : α}
    (hs : s <:+ line) (hn : s.length ≤ n) (hread : r s = .ok (a, u)) :
    u <:+ line ∧ p (.before number line s) = .ok (a, .before number line u) := by
  have htracks := h.tracks number line s hs hn
  rw [hread] at htracks
  generalize p (.before number line s) = y at htracks
  cases htracks with
  | value left => exact ⟨left, rfl⟩

theorem Agrees.run_error (h : Agrees n p r) (number : Nat) {s : Bytes} {f : LineFault}
    (hs : s <:+ line) (hn : s.length ≤ n) (hread : r s = .error f) :
    ∃ a c, p (.before number line s) = .ok (a, c) ∧ c.error = some (.inLine number line f) := by
  have htracks := h.tracks number line s hs hn
  rw [hread] at htracks
  generalize p (.before number line s) = y at htracks
  cases htracks with
  | fault noted => exact ⟨_, _, rfl, noted⟩

/-- A reader leaves an end of what it is given. -/
theorem Agrees.suffix (h : Agrees n p r) {s u : Bytes} {a : α} (hn : s.length ≤ n)
    (hread : r s = .ok (a, u)) : u <:+ s :=
  (h.run_ok 0 (List.suffix_refl s) hn hread).1

/-- The second part may rely on what the reader gives. -/
theorem Agrees.bind_of (h : Agrees n p r) (hg : r.Gives P) (hi : ∀ a, Inert (k a))
    (hk : ∀ a, P a → Agrees n (k a) (l a)) : Agrees n (p >>= k) (r >>= l) where
  inert := h.inert.bind hi
  tracks number line s hs hn := (h.tracks number line s hs hn).bind
    (fun a t hread ht => (hk a (hg s a t hread)).tracks number line t ht
      ((h.suffix hn hread).length_le.trans hn)) hi

theorem Agrees.bind (h : Agrees n p r) (hk : ∀ a, Agrees n (k a) (l a)) :
    Agrees n (p >>= k) (r >>= l) :=
  h.bind_of (.any r) (fun a => (hk a).inert) fun a _ => hk a

/-- The scanner gives what the reader gives in another form. -/
theorem Agrees.bind_map {γ : Type} {r : Reader γ} {φ : γ → α}
    (h : Agrees n p (do let c ← r; pure (φ c))) (hk : ∀ a, Agrees n (k a) (l a)) :
    Agrees n (p >>= k) (r >>= fun c => l (φ c)) := by
  have hbind := h.bind hk
  rw [bind_assoc] at hbind
  exact hbind

/-- Behind a byte that has been taken there are fewer. -/
theorem Agrees.bind_less (h : Agrees n p r) (ht : r.Consumes 1) (hi : ∀ a, Inert (k a))
    (hk : ∀ a m, m < n → Agrees m (k a) (l a)) : Agrees n (p >>= k) (r >>= l) where
  inert := h.inert.bind hi
  tracks number line s hs hn := (h.tracks number line s hs hn).bind (fun a t hread ht' => by
    have hlt := ht s a t hread
    exact (hk a t.length (by omega)).tracks number line t ht' (Nat.le_refl _)) hi

theorem agrees_pure (a : α) : Agrees n (pure a) (pure a) where
  inert := inert_pure a
  tracks _ _ _ hs _ := .value hs

theorem Agrees.ite {C : Prop} [Decidable C] (h : Agrees n p r) (h' : Agrees n q t) :
    Agrees n (if C then p else q) (if C then r else t) := by
  split
  · exact h
  · exact h'

/-- A fault is noted where the reader stops. -/
theorem agrees_fail (fault : LineFault) (a : α) :
    Agrees n (do fail fault; pure a) (Reader.fail fault) where
  inert := ((idle_fail fault).bind (idle_pure a)).inert
  tracks _ _ _ _ _ := .fault rfl

theorem agrees_fail_unit (fault : LineFault) : Agrees n (fail fault) (Reader.fail fault) where
  inert := (idle_fail fault).inert
  tracks _ _ _ _ _ := .fault rfl

/-- Without a fault the guard is passed. -/
theorem agrees_guard (hp : Inert p) (h : Agrees n q r) :
    Agrees n (do if ← faulty then p else q) r where
  inert := idle_faulty.bind_inert hp
  tracks number line s hs hn := h.tracks number line s hs hn

/-- A reader may look at what is left as a whole. -/
theorem agrees_get {l : Bytes → Reader α} (h : ∀ s : Bytes, Agrees s.length p (l s)) :
    Agrees n p (get >>= l) where
  inert := (h []).inert
  tracks number line s hs _ := (h s).tracks number line s hs (Nat.le_refl _)

end Agrees

/-- The byte at the cursor. -/
theorem getElem?_before {b : UInt8} {s : Bytes} (hs : b :: s <:+ line) :
    (line)[line.length - (b :: s).length]? = some b := by
  obtain ⟨pre, rfl⟩ := hs
  simp

theorem index_before {b : UInt8} {s : Bytes} (hs : b :: s <:+ line) (c : Cursor) :
    index line (line.length - (b :: s).length) c = .ok (b, c) := by
  rw [index, getElem?_before hs]
  rfl

theorem advance_before {b : UInt8} {s : Bytes} (hs : b :: s <:+ line) :
    advance (.before number line (b :: s)) = .ok ((), .before number line s) := by
  have hle := hs.length_le
  have hpos : line.length - (b :: s).length + 1 = line.length - s.length := by
    rw [List.length_cons] at hle ⊢
    omega
  show Except.ok ((), Cursor.mk number line (line.length - (b :: s).length + 1) none) = _
  rw [hpos]
  rfl

theorem pos_eq_length_iff {s : Bytes} (hs : s <:+ line) :
    line.length - s.length = line.length ↔ s = [] := by
  have hle := hs.length_le
  rw [← List.length_eq_zero_iff]
  omega

theorem atEnd_before {s : Bytes} (hs : s <:+ line) :
    atEnd (.before number line s) = .ok (s.isEmpty, .before number line s) := by
  have hend : decide (line.length - s.length = line.length) = s.isEmpty := by
    rw [Bool.eq_iff_iff, decide_eq_true_eq, pos_eq_length_iff hs, List.isEmpty_iff]
  show Except.ok (decide (line.length - s.length = line.length), _) = _
  rw [hend]

theorem agrees_atEnd : Agrees n atEnd Reader.atEnd where
  inert := inert_atEnd
  tracks number line s hs _ := by
    rw [atEnd_before hs]
    exact .value hs

theorem place_lt {b : UInt8} {s : Bytes} (hs : b :: s <:+ line) :
    line.length - (b :: s).length < line.length := by
  have hle := hs.length_le
  rw [List.length_cons] at hle ⊢
  omega

theorem ahead_nil (p : UInt8 → Bool) :
    ahead p (.before number line []) = .ok (false, .before number line []) := by
  show (if line.length - 0 < line.length then _ else pure false : Scan Bool) _ = _
  rw [Nat.sub_zero, if_neg (Nat.lt_irrefl _)]
  rfl

theorem ahead_cons (p : UInt8 → Bool) {b : UInt8} {s : Bytes} (hs : b :: s <:+ line) :
    ahead p (.before number line (b :: s)) = .ok (p b, .before number line (b :: s)) := by
  show (if line.length - (b :: s).length < line.length then
    index line (line.length - (b :: s).length) >>= fun c => pure (p c) else _ : Scan Bool) _ = _
  rw [if_pos (place_lt hs), bind_run, index_before hs]
  rfl

/-- Bytes of one kind are skipped one after the other. -/
theorem repeatWhile_advance (p : UInt8 → Bool) {s : Bytes} (hs : s <:+ line) {fuel : Nat}
    (hfuel : s.length < fuel) :
    repeatWhile (fun _ => ahead p) (fun _ => advance) fuel () (.before number line s) =
      .ok ((), .before number line (s.dropWhile p)) := by
  induction s generalizing fuel with
  | nil =>
    obtain ⟨n, rfl⟩ := Nat.exists_eq_succ_of_ne_zero hfuel.ne_bot
    rw [repeatWhile, bind_run, ahead_nil]
    rfl
  | cons b s ih =>
    obtain ⟨n, rfl⟩ := Nat.exists_eq_succ_of_ne_zero (Nat.ne_zero_of_lt hfuel)
    rw [repeatWhile, bind_run, ahead_cons p hs, ok_bind, List.dropWhile_cons]
    cases p b with
    | false => rfl
    | true =>
      show (advance >>= fun _ => repeatWhile _ _ n ()) (Cursor.before number line (b :: s)) = _
      rw [bind_run, advance_before hs, ok_bind]
      exact ih ((List.suffix_cons b s).trans hs) (Nat.lt_of_succ_lt_succ hfuel)

theorem skipWhile_before (p : UInt8 → Bool) {s : Bytes} (hs : s <:+ line) :
    skipWhile p (.before number line s) = .ok ((), .before number line (s.dropWhile p)) :=
  repeatWhile_advance p hs (Nat.lt_of_le_of_lt hs.length_le (by show _ < line.length + 2; omega))

/-- Without a fault the guard of a scanner is passed. -/
theorem guard_before (p q : Scan α) (s : Bytes) :
    (do if ← faulty then p else q) (.before number line s) = q (.before number line s) := rfl

theorem end_before (p q : Scan α) {s : Bytes} (hs : s <:+ line) :
    (do if ← atEnd then p else q) (.before number line s) =
      (if s.isEmpty then p else q) (.before number line s) := by
  rw [bind_run, atEnd_before hs]
  rfl

theorem peek_before (k : Cursor → UInt8 → Scan α) {b : UInt8} {s : Bytes}
    (hs : b :: s <:+ line) :
    (do
      let c ← get
      let b ← index c.line c.pos
      k c b) (.before number line (b :: s)) =
      k (.before number line (b :: s)) b (.before number line (b :: s)) := by
  show (index line (line.length - (b :: s).length) >>= k _) (.before number line (b :: s)) = _
  rw [bind_run, index_before hs]
  rfl

theorem agrees_char : Agrees n char Reader.peek where
  inert := idle_char.inert
  tracks number line s hs _ := by
    unfold char
    rw [guard_before, end_before _ _ hs]
    cases s with
    | nil => exact .fault rfl
    | cons b s =>
      show Tracks number line (.ok (b, b :: s)) (index line (line.length - (b :: s).length) _)
      rw [index_before hs]
      exact .value hs

theorem agrees_expect (want : UInt8) : Agrees n (expect want) (Reader.expect want) where
  inert := (idle_expect want).inert
  tracks number line s hs _ := by
    unfold expect
    rw [guard_before, end_before _ _ hs]
    cases s with
    | nil => exact .fault rfl
    | cons b s =>
      rw [List.isEmpty_cons, if_neg Bool.false_ne_true, peek_before _ hs]
      show Tracks number line ((if b = want then _ else _ : Reader Unit) (b :: s)) _
      have htail := (List.suffix_cons b s).trans hs
      split
      · rw [bind_run, advance_before hs, ok_bind, skipWhile_before _ htail]
        exact .value ((List.dropWhile_suffix _).trans htail)
      · exact .fault rfl

/-- A slice between two places of the cursor. -/
theorem slice_before {u t : Bytes} (hs : u ++ t <:+ line) (c : Cursor) :
    slice line (line.length - (u ++ t).length) (line.length - t.length) c = .ok (u, c) := by
  obtain ⟨pre, rfl⟩ := hs
  have hstart : (pre ++ (u ++ t)).length - (u ++ t).length = pre.length := by simp
  have hstop : (pre ++ (u ++ t)).length - t.length = pre.length + u.length := by
    simp only [List.length_append]
    omega
  rw [hstart, hstop, slice, if_pos (by simp only [List.length_append]; omega),
    List.take_length_add_append, List.take_left, List.drop_left]
  rfl

theorem agrees_ident : Agrees n ident Reader.ident where
  inert := idle_ident.inert
  tracks number line s hs _ := by
    have hsplit : s.takeWhile Reader.isIdentByte ++ s.dropWhile Reader.isIdentByte = s :=
      List.takeWhile_append_dropWhile
    have hrest := (List.dropWhile_suffix (l := s) Reader.isIdentByte).trans hs
    have hscan : ident (.before number line s) =
        (skipWhile Reader.isIdentByte >>= fun _ => get >>= fun c =>
          if c.pos = line.length - s.length then do
            fail (.noIdentifier (c.line.length - (line.length - s.length)))
            pure []
          else do
            let name ← slice c.line (line.length - s.length) c.pos
            skipWhile Reader.isSpace
            pure name) (.before number line s) := rfl
    rw [Reader.ident_run, hscan, bind_run, skipWhile_before _ hs, ok_bind]
    generalize s.takeWhile Reader.isIdentByte = name at hsplit
    generalize s.dropWhile Reader.isIdentByte = rest at hsplit hrest
    subst hsplit
    have hle := hs.length_le
    have hempty : line.length - rest.length = line.length - (name ++ rest).length ↔
        name.isEmpty := by
      rw [List.isEmpty_iff, ← List.length_eq_zero_iff]
      rw [List.length_append] at hle ⊢
      omega
    show Tracks number line (if name.isEmpty = true then _ else _)
      ((if line.length - rest.length = line.length - (name ++ rest).length then _ else _ :
        Scan Bytes) (.before number line rest))
    by_cases hname : name.isEmpty
    · rw [if_pos hname, if_pos (hempty.2 hname)]
      have hleft : line.length - (line.length - (name ++ rest).length) = (name ++ rest).length :=
        Nat.sub_sub_self hle
      refine .fault ?_
      show some (SyntaxError.inLine number line
        (.noIdentifier (line.length - (line.length - (name ++ rest).length)))) = _
      rw [hleft]
    · rw [if_neg hname, if_neg (hempty.not.2 hname), bind_run]
      show Tracks number line _ (slice line (line.length - (name ++ rest).length)
        (line.length - rest.length) _ >>= _)
      rw [slice_before hs, ok_bind]
      show Tracks number line _
        ((skipWhile Reader.isSpace >>= fun _ => pure name) (.before number line rest))
      rw [bind_run, skipWhile_before _ hrest]
      exact .value ((List.dropWhile_suffix _).trans hrest)

theorem agrees_type : Agrees n type Reader.type := by
  unfold type Reader.type
  refine agrees_ident.bind fun name => agrees_guard (inert_pure 0) ?_
  have refused : Agrees n (do fail (.badType name); pure (0 : Int))
      (Reader.fail (.badType name)) := agrees_fail _ _
  cases name with
  | nil => exact refused
  | cons i ds =>
    by_cases hi : i = byte 'i'
    · subst hi
      simp only [List.head?_cons, decide_true, Bool.true_and, if_true, List.drop_one,
        List.tail_cons]
      cases Numeral.decimal ds with
      | ok bits => exact .ite (agrees_pure _) refused
      | error fault => exact refused
    · simp only [List.head?_cons, Option.some.injEq, hi, decide_false, Bool.false_and,
        Bool.false_eq_true, if_false]
      cases Numeral.decimal (i :: ds) <;> cases Numeral.decimal ds <;> exact refused

theorem unmarked_before {b : UInt8} {s : Bytes} {c : Cursor} (hs : b :: s <:+ c.line) :
    unmarked (c.line.length - (b :: s).length) c = .ok (decide (b ≠ Quoted.mark), c) := by
  show (if c.line.length - (b :: s).length < c.line.length then
    index c.line (c.line.length - (b :: s).length) >>= fun d => pure (decide (d ≠ Quoted.mark))
    else _ : Scan Bool) c = _
  rw [if_pos (place_lt hs), bind_run, index_before hs]
  rfl

theorem unmarked_behind {i : Nat} {c : Cursor} (hi : c.line.length ≤ i) :
    unmarked i c = .ok (false, c) := by
  show (if i < c.line.length then _ else pure false : Scan Bool) c = _
  rw [if_neg (Nat.not_lt.2 hi)]
  rfl

theorem nextPlace_before {b : UInt8} {s : Bytes} {c : Cursor} (hs : b :: s <:+ c.line) :
    nextPlace (c.line.length - (b :: s).length) c =
      .ok (c.line.length - (b :: s).length + if b = Quoted.backslash then 2 else 1, c) := by
  show (index c.line (c.line.length - (b :: s).length) >>= fun d =>
    pure (if d = Quoted.backslash then _ else _) : Scan Nat) c = _
  rw [bind_run, index_before hs, ok_bind]
  dsimp only
  split <;> rfl

/-- The loop for the end of a quoted text is over behind the line. -/
theorem repeatWhile_behind {i : Nat} {c : Cursor} (n : Nat) (hi : c.line.length ≤ i) :
    repeatWhile unmarked nextPlace (n + 1) i c = .ok (i, c) := by
  rw [repeatWhile, bind_run, unmarked_behind hi]
  rfl

/-- It is over at a mark. -/
theorem repeatWhile_mark {s : Bytes} {c : Cursor} (n : Nat) (hs : Quoted.mark :: s <:+ c.line) :
    repeatWhile unmarked nextPlace (n + 1) (c.line.length - (Quoted.mark :: s).length) c =
      .ok (c.line.length - (Quoted.mark :: s).length, c) := by
  rw [repeatWhile, bind_run, unmarked_before hs]
  rfl

/-- It goes on behind any other byte. -/
theorem repeatWhile_past {b : UInt8} {s : Bytes} {c : Cursor} (n : Nat) (hs : b :: s <:+ c.line)
    (hb : b ≠ Quoted.mark) :
    repeatWhile unmarked nextPlace (n + 1) (c.line.length - (b :: s).length) c =
      repeatWhile unmarked nextPlace n
        (c.line.length - (b :: s).length + if b = Quoted.backslash then 2 else 1) c := by
  rw [repeatWhile, bind_run, unmarked_before hs, ok_bind, decide_eq_true hb]
  show (nextPlace (c.line.length - (b :: s).length) >>= repeatWhile unmarked nextPlace n) c = _
  rw [bind_run, nextPlace_before hs, ok_bind]

/-- What the place where the loop stops says of what the reader finds. -/
def Closes (line taken t : Bytes) (j : Nat) : Option (Bytes × Bytes) → Prop
  | none => line.length ≤ j
  | some (body, rest) => ∃ u, t = u ++ rest ∧ body = taken.reverse ++ u ∧
    j + 1 = line.length - rest.length

theorem Closes.cons {taken t : Bytes} {j : Nat} {b : UInt8} {o : Option (Bytes × Bytes)}
    (h : Closes line (b :: taken) t j o) : Closes line taken (b :: t) j o := by
  cases o with
  | none => exact h
  | some found =>
    obtain ⟨u, rfl, hbody, hj⟩ := h
    exact ⟨b :: u, rfl, by simpa using hbody, hj⟩

/-- The loop for the end of a quoted text stops at the mark that closes it or behind the line. -/
theorem repeatWhile_unmarked {c : Cursor} {t : Bytes} (taken : Bytes) (ht : t <:+ c.line)
    {fuel : Nat} (hfuel : t.length < fuel) :
    ∃ j, repeatWhile unmarked nextPlace fuel (c.line.length - t.length) c = .ok (j, c) ∧
      Closes c.line taken t j (Reader.closing taken t) := by
  have hle := ht.length_le
  fun_induction Reader.closing taken t generalizing fuel with
  | case1 taken =>
    obtain ⟨n, rfl⟩ := Nat.exists_eq_succ_of_ne_zero (Nat.ne_zero_of_lt hfuel)
    exact ⟨_, repeatWhile_behind n (Nat.le_refl _), Nat.le_refl _⟩
  | case2 taken rest =>
    obtain ⟨n, rfl⟩ := Nat.exists_eq_succ_of_ne_zero (Nat.ne_zero_of_lt hfuel)
    refine ⟨_, repeatWhile_mark n ht, [Quoted.mark], rfl, by simp, ?_⟩
    rw [List.length_cons] at hle ⊢
    omega
  | case3 taken hne =>
    rw [List.length_singleton] at hfuel
    obtain ⟨n, rfl⟩ := Nat.exists_eq_add_of_le' hfuel
    have hbehind : c.line.length ≤ c.line.length - [Quoted.backslash].length + 2 := by
      rw [List.length_singleton]
      omega
    refine ⟨_, ?_, hbehind⟩
    rw [repeatWhile_past _ ht hne, if_pos rfl]
    exact repeatWhile_behind _ hbehind
  | case4 taken d rest hne ih =>
    obtain ⟨n, rfl⟩ := Nat.exists_eq_succ_of_ne_zero (Nat.ne_zero_of_lt hfuel)
    have hrest := (List.suffix_cons _ _).trans ((List.suffix_cons _ _).trans ht)
    simp only [List.length_cons] at hfuel hle
    have hplace : c.line.length - (Quoted.backslash :: d :: rest).length + 2 =
        c.line.length - rest.length := by
      simp only [List.length_cons]
      omega
    have hless : rest.length < n := by omega
    obtain ⟨j, hj, hclose⟩ := ih hrest hless (by omega)
    refine ⟨j, ?_, hclose.cons.cons⟩
    rw [repeatWhile_past n ht hne, if_pos rfl, hplace]
    exact hj
  | case5 taken b rest hmark hne ih =>
    obtain ⟨n, rfl⟩ := Nat.exists_eq_succ_of_ne_zero (Nat.ne_zero_of_lt hfuel)
    have hrest := (List.suffix_cons _ _).trans ht
    simp only [List.length_cons] at hfuel hle
    have hplace : c.line.length - (b :: rest).length + 1 = c.line.length - rest.length := by
      simp only [List.length_cons]
      omega
    have hless : rest.length < n := by omega
    obtain ⟨j, hj, hclose⟩ := ih hrest hless (by omega)
    refine ⟨j, ?_, hclose.cons⟩
    rw [repeatWhile_past n ht hmark, if_neg hne, hplace]
    exact hj

theorem loop_unmarked (number : Nat) (s : Bytes) {t : Bytes} (ht : t <:+ line) :
    ∃ j, loop unmarked nextPlace (line.length - t.length) (.before number line s) =
        .ok (j, .before number line s) ∧ Closes line [] t j (Reader.closing [] t) := by
  have hfuel : t.length < line.length + 2 := Nat.lt_add_right 1 (Nat.lt_succ_of_le ht.length_le)
  exact repeatWhile_unmarked (c := .before number line s) [] ht hfuel

theorem agrees_quoted : Agrees n quoted Reader.quoted where
  inert := idle_quoted.inert
  tracks number line s hs _ := by
    unfold quoted
    rw [guard_before, end_before _ _ hs]
    cases s with
    | nil => exact .fault rfl
    | cons b rest =>
      rw [List.isEmpty_cons, if_neg Bool.false_ne_true, peek_before _ hs]
      by_cases hb : b = Quoted.mark
      · rw [if_neg (not_not_intro hb)]
        have hle := hs.length_le
        have hrest := (List.suffix_cons _ _).trans hs
        have hstart : (Cursor.before number line (b :: rest)).pos + 1 =
            line.length - rest.length := by
          show line.length - (b :: rest).length + 1 = _
          rw [List.length_cons] at hle ⊢
          omega
        obtain ⟨j, hj, hclose⟩ := loop_unmarked number (b :: rest) hrest
        rw [bind_run, hstart, hj, ok_bind]
        show Tracks number line _ ((if line.length ≤ j then _ else _ : Scan Bytes) _)
        subst hb
        cases hfound : Reader.closing [] rest with
        | none =>
          rw [hfound] at hclose
          rw [Reader.quoted_open hfound, if_pos (show line.length ≤ j from hclose)]
          exact .fault rfl
        | some found =>
          obtain ⟨body, t⟩ := found
          rw [hfound] at hclose
          rw [Reader.quoted_closed hfound]
          obtain ⟨u, rfl, hbody, hplace⟩ := hclose
          obtain rfl : body = u := hbody
          have htail := (List.suffix_append body t).trans hrest
          rw [if_neg (by omega)]
          show Tracks number line _
            ((slice line (line.length - (Quoted.mark :: body ++ t).length) (j + 1) >>= _) _)
          rw [hplace, bind_run, slice_before hs, ok_bind]
          cases Quoted.unquote? (Quoted.mark :: body) with
          | none => exact .fault rfl
          | some x =>
            show Tracks number line (.ok (x, t.dropWhile Reader.isSpace))
              ((skipWhile Reader.isSpace >>= fun _ => pure x) (.before number line t))
            rw [bind_run, skipWhile_before _ htail]
            exact .value ((List.dropWhile_suffix _).trans htail)
      · rw [if_pos hb, Reader.quoted_of_ne hb]
        exact .fault rfl

section Loops
variable {again : σ → Scan Bool} {round : σ → Scan σ} {more : Reader Bool}
  {step : Nat → σ → Reader σ}
  (hidle : ∀ s, Idle (again s) false) (hmore : ∀ n s, Agrees n (again s) more)
  (hround : ∀ n s, Agrees n (round s) (step n s)) (htake : ∀ n s, Reader.Consumes 1 (step n s))
include hidle hmore hround htake

/-- A loop does the rounds of a reader if each of them takes a byte. -/
theorem tracks_repeatWhile {fuel n : Nat} {x : Bytes} (s : σ) (hx : x <:+ line)
    (hn : x.length < n) (hfuel : x.length + 1 < fuel) :
    Tracks number line (Reader.rounds more step n s x)
      (repeatWhile again round fuel s (.before number line x)) := by
  induction fuel generalizing n x s with
  | zero => cases hfuel
  | succ fuel ih =>
    obtain ⟨n, rfl⟩ := Nat.exists_eq_succ_of_ne_zero (Nat.ne_zero_of_lt hn)
    have hle := Nat.le_of_lt_succ hn
    -- the round that meets a fault leaves fuel for the test that ends the loop
    have hrest : ∀ s, Inert (repeatWhile again round fuel s) :=
      fun s => (idle_repeatWhile hidle (by omega) s).inert
    have hgo : ∀ b : Bool,
        Inert (if b then round s >>= repeatWhile again round fuel else pure s) :=
      fun b => .ite ((hround 0 s).inert.bind hrest) (inert_pure s)
    refine ((hmore n s).tracks number line x hx hle).bind
      (l := fun b => if b then step n s >>= Reader.rounds more step n else pure s)
      (fun b t hb ht => ?_) hgo
    have ht' := ((hmore n s).suffix hle hb).length_le
    cases b with
    | false => exact .value ht
    | true =>
      refine ((hround n s).tracks number line t ht (by omega)).bind (fun s' u hs' hu => ?_) hrest
      have hlt := htake n s t s' u hs'
      exact ih s' hu (by omega) (by omega)

theorem agrees_loop {m : Nat} (hm : n < m) (s : σ) :
    Agrees n (loop again round s) (Reader.rounds more step m s) where
  inert := inert_loop hidle s
  tracks _ _ _ hx hn := tracks_repeatWhile hidle hmore hround htake s hx
    (Nat.lt_of_le_of_lt hn hm) (Nat.lt_succ_of_le (Nat.succ_le_succ hx.length_le))

end Loops

theorem agrees_goesOn (close : UInt8) :
    Agrees n (goesOn close) (do return (← Reader.peek) ≠ close) :=
  agrees_guard (inert_pure false) (agrees_char.bind fun _ => agrees_pure _)

theorem agrees_commaUnless (close : UInt8) :
    Agrees n (commaUnless close) (Reader.commaUnless close) :=
  agrees_char.bind fun _ => .ite (agrees_expect _) (agrees_pure ())

theorem agrees_commaUnlessEnd : Agrees n commaUnlessEnd Reader.separator :=
  agrees_atEnd.bind fun _ => .ite (agrees_expect _) (agrees_pure ())

section Lists
variable {item : Scan α} {r : Reader α} (hitem : ∀ n, Agrees n item r)
  (htake : Reader.Consumes 1 r)
include hitem htake

/-- Lists are read item by item, each put behind those that are there. -/
theorem agrees_listUntil (close : UInt8) {m : Nat} (hm : n < m) (l : List α) :
    Agrees n (listUntil close item l)
      (do let rest ← Reader.listUntil close r m; pure (l ++ rest)) := by
  rw [Reader.listUntil_eq_rounds]
  refine agrees_loop (fun _ => idle_goesOn close) (fun _ _ => agrees_goesOn close)
    (fun n l => ?_) (fun n l => ?_) hm l
  · exact (hitem n).bind fun a => (agrees_commaUnless close).bind fun _ => agrees_pure _
  · exact htake.bind (n := 0) fun a =>
      (Reader.consumes_commaUnless close).bind (n := 0) fun _ => Reader.consumes_pure _

theorem agrees_listUntil_nil (close : UInt8) {m : Nat} (hm : n < m) :
    Agrees n (listUntil close item []) (Reader.listUntil close r m) := by
  have hlist := agrees_listUntil hitem htake close hm []
  simp only [List.nil_append, bind_pure] at hlist
  exact hlist

end Lists

end Scan
end Disguise.Syntax
