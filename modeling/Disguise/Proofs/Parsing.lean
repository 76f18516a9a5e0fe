import Disguise.Proofs.Scanning

/-!
Whole lines and whole modules read with a cursor.
-/
namespace Disguise.Syntax
open Bytes Results

namespace Scan
variable {α β : Type} {n number : Nat} {line : Bytes}

theorem agrees_done : Agrees n done Reader.done :=
  agrees_guard (inert_pure ()) (agrees_atEnd.bind fun _ =>
    .ite (agrees_fail_unit _) (agrees_pure ()))

theorem agrees_param : Agrees n param Syntax.param := by
  unfold param Syntax.param
  refine agrees_type.bind fun bits => (agrees_expect _).bind fun _ => ?_
  refine agrees_ident.bind fun name => ?_
  cases name with
  | nil => exact agrees_pure _
  | cons b name =>
    show Agrees n (if Reader.isDigitByte b then _ else _ : Scan (Bytes × Int))
      (if Reader.isDigitByte b then _ else _)
    exact .ite ((agrees_fail_unit _).bind fun _ => agrees_pure _) (agrees_pure _)

theorem consumes_type : Reader.Consumes 1 Reader.type := by
  unfold Reader.type
  refine Reader.consumes_ident.bind (n := 0) fun name => ?_
  split
  · split
    · exact .ite (Reader.consumes_pure _) (Reader.consumes_fail _ _)
    · exact Reader.consumes_fail _ _
  · exact Reader.consumes_fail _ _

theorem consumes_param : Reader.Consumes 1 Syntax.param := by
  unfold Syntax.param
  refine consumes_type.bind (n := 0) fun bits => ?_
  refine ((Reader.consumes_expect _).mono (Nat.zero_le 1)).bind (n := 0) fun _ => ?_
  refine (Reader.consumes_ident.mono (Nat.zero_le 1)).bind (n := 0) fun name => .ite ?_ ?_
  · exact (Reader.consumes_fail 0 _).bind (n := 0) fun _ => Reader.consumes_pure _
  · exact Reader.consumes_pure _

theorem consumes_quoted : Reader.Consumes 1 Reader.quoted := by
  intro s a t h
  cases s with
  | nil => cases h
  | cons b rest =>
    by_cases hb : b = Quoted.mark
    · subst hb
      obtain ⟨j, -, hclose⟩ := loop_unmarked 0 [] (List.suffix_refl rest)
      cases hfound : Reader.closing [] rest with
      | none =>
        rw [Reader.quoted_open hfound] at h
        cases h
      | some found =>
        obtain ⟨body, u⟩ := found
        rw [hfound] at hclose
        obtain ⟨v, rfl, -, -⟩ := hclose
        rw [Reader.quoted_closed hfound] at h
        cases hread : Quoted.unquote? (Quoted.mark :: body) with
        | none =>
          rw [hread] at h
          cases h
        | some x =>
          rw [hread] at h
          obtain ⟨-, rfl⟩ := Prod.mk.inj (Except.ok.inj h)
          have hle := (List.dropWhile_suffix (l := u) Reader.isSpace).length_le
          have hsuffix := (List.suffix_append v u).length_le
          exact Nat.succ_le_succ (hle.trans hsuffix)
    · rw [Reader.quoted_of_ne hb] at h
      cases h

/-- The metadata of attributes in order; a reader keeps it in reverse. -/
def inOrder (a : Attributes) : Attributes := { a with metadata := a.metadata.reverse }

theorem inOrder_inOrder (a : Attributes) : inOrder (inOrder a) = a := by
  simp [inOrder]

/-- What a reader does behind the name of an attribute, told with the metadata in order. -/
def readTagged (fuel : Nat) (a : Attributes) (name : Bytes) : Reader Attributes := do
  if name = text "annotate" then
    Reader.expect (byte '(')
    let s ← Reader.quoted
    Reader.expect (byte ')')
    pure { a with annotation := s }
  else if name = text "metadata" then
    Reader.expect (byte '(')
    let entries ← Reader.listUntil (byte ')') Reader.quoted fuel
    Reader.expect (byte ')')
    pure { a with metadata := a.metadata ++ entries }
  else Reader.fail (.unknownAttribute name)

theorem readTagged_bind (fuel : Nat) (a : Attributes) (k : Attributes → Reader α) :
    (do
      let name ← Reader.ident
      let b ← readTagged fuel a name
      k b) = (do
      let b ← Syntax.tag fuel (inOrder a)
      k (inOrder b)) := by
  unfold Syntax.tag
  rw [bind_assoc]
  refine congrArg _ (funext fun name => ?_)
  unfold readTagged
  split
  · simp [inOrder]
  · split
    · simp [inOrder]
    · rfl

theorem attributes_eq_rounds (n : Nat) (a : Attributes) :
    (do let a ← Syntax.attributes n (inOrder a); pure (inOrder a)) =
      Reader.rounds (do
        if ← Reader.atEnd then pure false else return (← Reader.peek) ≠ openBrace)
        (fun n a => do readTagged n a (← Reader.ident)) n a := by
  induction n generalizing a with
  | zero =>
    show (pure (inOrder (inOrder a)) : Reader Attributes) = pure a
    rw [inOrder_inOrder]
  | succ n ih =>
    rw [Syntax.attributes, Reader.rounds, bind_assoc, bind_assoc]
    refine congrArg _ (funext fun b => ?_)
    cases b with
    | true => simp [inOrder_inOrder]
    | false =>
      simp only [Bool.false_eq_true, if_false, bind_assoc]
      refine congrArg _ (funext fun b => ?_)
      by_cases hb : b = openBrace
      · simp [hb, inOrder_inOrder]
      · rw [if_neg hb, pure_bind, decide_eq_true hb, if_pos rfl, readTagged_bind, bind_assoc]
        refine congrArg _ (funext fun b => ?_)
        rw [← ih, inOrder_inOrder]

theorem agrees_tagged {m : Nat} (hm : n < m) (a : Attributes) (name : Bytes) :
    Agrees n (tagged a name) (readTagged m a name) := by
  unfold tagged readTagged
  refine .ite ?_ (.ite ?_ (agrees_fail _ _))
  · refine (agrees_expect _).bind fun _ => agrees_quoted.bind fun s => ?_
    exact (agrees_expect _).bind fun _ => agrees_pure _
  · refine (agrees_expect _).bind fun _ => ?_
    refine (agrees_listUntil (fun _ => agrees_quoted) consumes_quoted (byte ')') hm _).bind_map
      (l := fun metadata => do Reader.expect (byte ')'); pure { a with metadata }) fun l => ?_
    exact (agrees_expect _).bind fun _ => agrees_pure _

theorem agrees_tag (a : Attributes) :
    Agrees n (tag a) (do readTagged n a (← Reader.ident)) :=
  agrees_ident.bind_less Reader.consumes_ident
    (fun name => (agrees_tagged Nat.one_pos a name).inert)
    fun name _ hm => agrees_tagged hm a name

theorem consumes_readTagged (m : Nat) (a : Attributes) (name : Bytes) :
    Reader.Consumes 0 (readTagged m a name) := by
  have hexpect : ∀ b, Reader.Consumes 0 (Reader.expect b) :=
    fun b => (Reader.consumes_expect b).mono (Nat.zero_le 1)
  have hquoted := consumes_quoted.mono (Nat.zero_le 1)
  unfold readTagged
  refine .ite ?_ (.ite ?_ (Reader.consumes_fail _ _))
  · refine (hexpect _).bind (n := 0) fun _ => hquoted.bind (n := 0) fun s => ?_
    exact (hexpect _).bind (n := 0) fun _ => Reader.consumes_pure _
  · refine (hexpect _).bind (n := 0) fun _ => ?_
    refine (Reader.consumes_listUntil hquoted _ _).bind (n := 0) fun l => ?_
    exact (hexpect _).bind (n := 0) fun _ => Reader.consumes_pure _

theorem agrees_attributes {m : Nat} (hm : n < m) :
    Agrees n (attributes {}) (do let a ← Syntax.attributes m {}; pure (inOrder a)) := by
  have hloop : Agrees n (attributes {})
      (do let a ← Syntax.attributes m (inOrder {}); pure (inOrder a)) := by
    rw [attributes_eq_rounds]
    refine agrees_loop (fun _ => idle_guard (idle_pure _)) (fun n a => ?_)
      (fun n a => agrees_tag a) (fun n a => ?_) hm {}
    · refine agrees_guard (inert_pure _) (agrees_atEnd.bind fun b => ?_)
      exact .ite (agrees_pure _) (agrees_char.bind fun _ => agrees_pure _)
    · exact Reader.consumes_ident.bind (n := 0) fun name => consumes_readTagged n a name
  exact hloop

theorem agrees_signature (external hasBody : Bool) :
    Agrees n (signature external hasBody) (Syntax.signature external hasBody) := by
  unfold signature Syntax.signature
  refine agrees_ident.bind fun name => (agrees_expect _).bind fun _ => agrees_get fun s => ?_
  refine (agrees_listUntil_nil (fun _ => agrees_param) consumes_param _
    (Nat.lt_succ_self _)).bind fun params => (agrees_expect _).bind fun _ => ?_
  refine agrees_type.bind fun retBits => agrees_get fun t => ?_
  refine (agrees_attributes (Nat.lt_succ_self t.length)).bind_map
    (l := fun a => do
      if hasBody then Reader.expect openBrace
      Reader.done
      pure ({
        name, external, params, retBits, hasBody
        annotation := a.annotation, metadata := a.metadata } : Header)) fun a => .ite ?_ ?_
  · exact (agrees_expect _).bind fun _ => agrees_done.bind fun _ => agrees_pure _
  · exact agrees_done.bind fun _ => agrees_pure _

theorem agrees_header : Agrees n header Syntax.header := by
  rw [header_eq]
  unfold header
  have hrest : ∀ first word : Bytes, Agrees n (do
      if word ≠ text "func" ∧ word ≠ text "declare" then fail (.noKeyword word)
      signature (first = text "external") (word = text "func"))
    (do
      if word ≠ text "func" ∧ word ≠ text "declare" then Reader.fail (.noKeyword word)
      Syntax.signature (first = text "external") (word = text "func")) :=
    fun first word => .ite ((agrees_fail_unit _).bind fun _ => agrees_signature _ _)
      (agrees_signature _ _)
  refine agrees_ident.bind fun first => .ite ?_ ?_
  · exact agrees_ident.bind (hrest first)
  · exact (agrees_pure first).bind (hrest first)

theorem truncate_eq_ok {bits : Int} (h : Word.goodWidth bits) (v : UInt64) :
    Word.truncate v bits = .ok (Word.low v bits.toNat) := if_pos h

theorem agrees_operand {bits : Int} (h : Word.goodWidth bits) (args : List DraftArg) :
    Agrees n (operand bits args) (do let a ← Syntax.operand bits; pure (args ++ [a])) := by
  unfold operand Syntax.operand
  rw [bind_assoc]
  refine agrees_char.bind fun b => ?_
  by_cases hname : b = byte '%'
  · simp only [hname, if_true, bind_assoc, pure_bind]
    exact (agrees_expect _).bind fun _ => agrees_ident.bind fun name => agrees_pure _
  · by_cases hdigit : Reader.isDigitByte b
    · simp only [hname, hdigit, if_false, if_true, bind_assoc]
      refine agrees_ident.bind fun numeral => ?_
      cases Numeral.anyBase UInt64.size numeral with
      | error fault => exact agrees_fail _ _
      | ok number =>
        dsimp only
        rw [truncate_eq_ok h]
        simp only [keeping, pure_bind]
        by_cases hfits : Word.fits (UInt64.ofNat number) bits
        · have hlow : Word.low (UInt64.ofNat number) bits.toNat = UInt64.ofNat number :=
            beq_iff_eq.1 hfits
          rw [if_pos hfits, hlow, if_neg (not_not_intro rfl)]
          exact agrees_pure _
        · rw [if_neg hfits, if_pos fun hlow => hfits (beq_iff_eq.2 hlow.symm)]
          exact agrees_fail _ _
    · simp only [hname, hdigit, if_false]
      exact agrees_fail _ _

theorem agrees_operands {bits : Int} (h : Word.goodWidth bits) {m : Nat} (hm : n < m) :
    Agrees n (operands bits []) (Reader.listToEnd (Syntax.operand bits) m) := by
  have hloop : Agrees n (operands bits [])
      (do let rest ← Reader.listToEnd (Syntax.operand bits) m; pure ([] ++ rest)) := by
    rw [Reader.listToEnd_eq_rounds]
    refine agrees_loop (fun _ => idle_guard (idle_pure _)) (fun n args => ?_) (fun n args => ?_)
      (fun n args => ?_) hm []
    · exact agrees_guard (inert_pure _) (agrees_atEnd.bind fun _ => agrees_pure _)
    · exact (agrees_operand h args).bind_map (l := fun args => do Reader.separator; pure args)
        fun args => agrees_commaUnlessEnd.bind fun _ => agrees_pure args
    · exact (Reader.consumes_operand bits).bind (n := 0) fun a =>
        Reader.consumes_separator.bind (n := 0) fun _ => Reader.consumes_pure _
  simp only [List.nil_append, bind_pure] at hloop
  exact hloop

theorem inert_operands (bits : Int) (args : List DraftArg) : Inert (operands bits args) :=
  inert_loop (fun _ => idle_guard (idle_pure _)) args

theorem agrees_terminatorParts {retBits : Int} (h : Word.goodWidth retBits) (code : Opcode) :
    Agrees n (terminatorParts retBits code) (Syntax.terminatorParts retBits code) := by
  have hret : Agrees n (terminatorParts retBits .ret) (Syntax.terminatorParts retBits .ret) :=
    agrees_atEnd.bind fun b => .ite (agrees_pure _)
      ((agrees_operand h []).bind_map (l := fun args => pure (args, [])) fun args => agrees_pure _)
  have hbr : Agrees n (terminatorParts retBits .br) (Syntax.terminatorParts retBits .br) :=
    agrees_ident.bind fun _ => agrees_pure _
  have hbrif : Agrees n (terminatorParts retBits .brif) (Syntax.terminatorParts retBits .brif) :=
    (agrees_operand (show Word.goodWidth 1 from rfl) []).bind_map
      (l := fun args => do
        Reader.expect (byte ',')
        let yes ← Reader.ident
        Reader.expect (byte ',')
        let no ← Reader.ident
        pure (args, [yes, no]))
      fun args => (agrees_expect _).bind fun _ => agrees_ident.bind fun yes =>
        (agrees_expect _).bind fun _ => agrees_ident.bind fun no => agrees_pure (args, [yes, no])
  cases code
  case ret => exact hret
  case br => exact hbr
  case brif => exact hbrif
  all_goals exact agrees_pure _

/-- Where a line has been read: without an error there is no fault. -/
def Leaves (number : Nat) (x : Except SyntaxError α)
    (y : Except Crash (Except SyntaxError α × Cursor)) : Prop :=
  ∃ c, y = .ok (x, c) ∧ ∀ a, x = .ok a → c.error = none ∧ c.number = number

theorem leaves_before (x : Except SyntaxError α) (s : Bytes) :
    Leaves number x (.ok (x, .before number line s)) :=
  ⟨_, rfl, fun _ _ => ⟨rfl, rfl⟩⟩

theorem leaves_error (e : SyntaxError) (c : Cursor) :
    Leaves number (.error e : Except SyntaxError α) (.ok (.error e, c)) :=
  ⟨c, rfl, fun _ h => nomatch h⟩

theorem checked_of_none {p : Scan α} {a : α} {c c' : Cursor} (h : p c = .ok (a, c'))
    (hc : c'.error = none) : checked p c = .ok (.ok a, c') := by
  rw [checked, bind_run, h, ok_bind, get_run]
  simp only [hc]
  rfl

theorem checked_of_some {p : Scan α} {a : α} {c c' : Cursor} {e : SyntaxError}
    (h : p c = .ok (a, c')) (hc : c'.error = some e) : checked p c = .ok (.error e, c') := by
  rw [checked, bind_run, h, ok_bind, get_run]
  simp only [hc]
  rfl

/-- A reader that is run within a line, and what is done with its result. -/
theorem leaves_checked {p : Scan α} {r : Reader α} {s : Bytes}
    {k : Except SyntaxError α → Scan (Except SyntaxError β)}
    {l : α × Bytes → Except SyntaxError β} (h : Agrees s.length p r) (hs : s <:+ line)
    (hok : ∀ a t, t <:+ line → r s = .ok (a, t) →
      Leaves number (l (a, t)) (k (.ok a) (.before number line t)))
    (herror : ∀ e c, k (.error e) c = .ok (.error e, c)) :
    Leaves number (Draft.reading number line s r >>= l)
      ((checked p >>= k) (.before number line s)) := by
  show Leaves number ((r s).mapError (.inLine number line) >>= l) _
  rw [bind_run]
  cases hread : r s with
  | ok q =>
    obtain ⟨a, t⟩ := q
    obtain ⟨ht, hrun⟩ := h.run_ok number hs (Nat.le_refl _) hread
    rw [checked_of_none hrun rfl]
    exact hok a t ht hread
  | error f =>
    obtain ⟨a, c, hrun, hc⟩ := h.run_error number hs (Nat.le_refl _) hread
    rw [checked_of_some hrun hc]
    show Leaves number _ (k (.error (.inLine number line f)) c)
    rw [herror]
    exact leaves_error _ c

theorem terminator_leaves {d : Draft} (hd : Word.goodWidth d.header.retBits) (name : Bytes)
    {s : Bytes} (hs : s <:+ line) : Leaves number (d.addTerminator number line name s)
      (terminator d name (.before number line s)) := by
  unfold Draft.addTerminator terminator
  rw [get_run]
  cases (Opcode.parse? name).filter (·.isTerminator) with
  | none => exact leaves_error _ _
  | some code =>
    have hparts : Agrees s.length
        (do let parts ← terminatorParts d.header.retBits code; done; pure parts)
        (do let parts ← Syntax.terminatorParts d.header.retBits code; Reader.done; pure parts) :=
      (agrees_terminatorParts hd code).bind fun parts => agrees_done.bind fun _ => agrees_pure parts
    exact leaves_checked hparts hs (fun parts t _ _ => leaves_before _ t) fun _ _ => rfl

theorem value_leaves (d : Draft) {s : Bytes} (hs : s <:+ line) :
    Leaves number (d.addValue number line s) (value d (.before number line s)) := by
  have hstart : Agrees s.length
      (do expect (byte '%'); let result ← ident; expect (byte '='); return (result, ← ident))
      (do
        Reader.expect (byte '%')
        let result ← Reader.ident
        Reader.expect (byte '=')
        return (result, ← Reader.ident)) :=
    (agrees_expect _).bind fun _ => agrees_ident.bind fun result =>
      (agrees_expect _).bind fun _ => agrees_ident.bind fun name => agrees_pure (result, name)
  unfold Draft.addValue value
  refine leaves_checked hstart hs (fun start t ht _ => ?_) fun _ _ => rfl
  obtain ⟨result, name⟩ := start
  dsimp only [assignment]
  rw [get_run]
  cases (Opcode.parse? name).filter (!·.isTerminator) with
  | none => exact leaves_error _ _
  | some code =>
    have hparts : Agrees t.length (do let bits ← type; return (bits, ← operands bits []))
        (do
          let bits ← Reader.type
          return (bits, ← Reader.listToEnd (Syntax.operand bits) ((← get).length + 1))) := by
      refine agrees_type.bind_of Reader.gives_type (fun bits => ?_) fun bits hbits => ?_
      · exact (inert_operands bits []).bind fun args => inert_pure _
      · exact agrees_get fun u => (agrees_operands hbits (Nat.lt_succ_self _)).bind fun args =>
          agrees_pure _
    exact leaves_checked hparts ht (fun parts u _ _ => leaves_before _ u) fun _ _ => rfl

theorem char_before {b : UInt8} {s : Bytes} (hs : b :: s <:+ line) :
    char (.before number line (b :: s)) = .ok (b, .before number line (b :: s)) :=
  ((agrees_char (n := (b :: s).length)).run_ok _ hs (Nat.le_refl _) rfl).2

theorem expect_before {b : UInt8} {s : Bytes} (hs : b :: s <:+ line) :
    expect b (.before number line (b :: s)) =
      .ok ((), .before number line (s.dropWhile Reader.isSpace)) :=
  ((agrees_expect (n := (b :: s).length) b).run_ok _ hs (Nat.le_refl _)
    (Reader.takes_expect rfl)).2

theorem colonAhead_before {s : Bytes} (hs : s <:+ line) :
    colonAhead (.before number line s) =
      .ok (decide (s.head? = some (byte ':')), .before number line s) := by
  unfold colonAhead
  rw [guard_before, end_before _ _ hs]
  cases s with
  | nil => rfl
  | cons b s =>
    rw [List.isEmpty_cons, if_neg Bool.false_ne_true, bind_run, char_before hs]
    show Except.ok (decide (b = byte ':'), _) = Except.ok (decide (some b = some (byte ':')), _)
    simp only [Option.some.injEq]

theorem idle_colonAhead : Idle colonAhead false := idle_guard (idle_pure _)

/-- Nothing but blanks is left. -/
theorem isEmpty_dropWhile_isSpace (s : Bytes) :
    (s.dropWhile Reader.isSpace).isEmpty = s.all Reader.isSpace := by
  rw [Bool.eq_iff_iff, List.isEmpty_iff, List.dropWhile_eq_nil_iff, List.all_eq_true]

/-- The end of a label. -/
theorem label_leaves (d : Draft) (name : Bytes) {s : Bytes} (hs : byte ':' :: s <:+ line) :
    Leaves number (if !s.all Reader.isSpace then .error (.trailingLabel number)
        else if d.labels.contains name then .error (.duplicateBlock name number)
        else .ok (d.addBlock name))
      (label d name (.before number line (byte ':' :: s))) := by
  have hrest := (List.dropWhile_suffix (l := s) Reader.isSpace).trans
    ((List.suffix_cons (byte ':') s).trans hs)
  unfold label
  rw [get_run, bind_run, expect_before hs, ok_bind, bind_run, atEnd_before hrest, ok_bind,
    isEmpty_dropWhile_isSpace]
  dsimp only
  split
  · exact leaves_before _ _
  · split <;> exact leaves_before _ _

/-- A line of a body, from its first byte on. -/
theorem bodyLine_leaves (number : Nat) {d : Draft}
    (hd : Word.goodWidth d.header.retBits) {b : UInt8} {s : Bytes}
    (hs : b :: s <:+ line) : Leaves number (d.addLine number line (b :: s))
      (bodyLine d (.before number line (b :: s))) := by
  unfold Draft.addLine bodyLine
  rw [bind_run, char_before hs, ok_bind]
  dsimp only
  by_cases hb : b = byte '%'
  · subst hb
    rw [if_pos rfl, List.head?_cons, if_pos rfl]
    exact value_leaves d hs
  · rw [if_neg hb, List.head?_cons, if_neg fun heq => hb (Option.some.inj heq), bind_run]
    show Leaves number ((Reader.ident (b :: s)).mapError (.inLine number line) >>= _) _
    cases hread : Reader.ident (b :: s) with
    | error f =>
      obtain ⟨a, c, hrun, hc⟩ :=
        agrees_ident.run_error number hs (Nat.le_refl _) hread
      rw [hrun, ok_bind, bind_run, idle_colonAhead c (by rw [hc]; rfl), ok_bind]
      rw [if_neg Bool.false_ne_true, get_run]
      simp only [hc]
      exact leaves_error _ c
    | ok q =>
      obtain ⟨name, t⟩ := q
      obtain ⟨ht, hrun⟩ := agrees_ident.run_ok number hs (Nat.le_refl _) hread
      rw [hrun, ok_bind, bind_run, colonAhead_before ht, ok_bind]
      cases t with
      | nil => exact terminator_leaves hd name ht
      | cons c t =>
        by_cases hc : c = byte ':'
        · subst hc
          exact label_leaves d name ht
        · have hcolon : some c ≠ some (byte ':') := fun heq => hc (Option.some.inj heq)
          show Leaves number (if some c = some (byte ':') then _ else _)
            ((if decide (some c = some (byte ':')) = true then _ else _ :
              Scan (Except SyntaxError Draft)) (.before number line (c :: t)))
          rw [if_neg hcolon, if_neg (by simpa using hc)]
          exact terminator_leaves hd name ht

end Scan
end Disguise.Syntax
