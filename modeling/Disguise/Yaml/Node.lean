import Disguise.Yaml.Tokens

/-!
The tree of the first document of a text. An alias stands for the node that bears its anchor; one
that stands within that node has no target.
-/
namespace Disguise.Yaml

/-- How a scalar is written. -/
inductive Style where
  | plain
  | quoted
  | tagged (tag : Bytes)
  deriving DecidableEq, Repr

structure Scalar where
  text : Bytes
  style : Style := .plain
  deriving DecidableEq, Repr

inductive Node where
  | scalar (s : Scalar)
  | sequence (items : List Node)
  | mapping (pairs : List (Node × Node))
  | alias (name : Bytes) (target : Option Node)

/-- What tells the keys of a mapping apart. -/
inductive Label where
  | scalar (text : Bytes)
  | sequence
  | mapping
  | alias (name : Bytes)
  deriving DecidableEq, Repr

def Node.label : Node → Label
  | .scalar s => .scalar s.text
  | .sequence _ => .sequence
  | .mapping _ => .mapping
  | .alias name _ => .alias name

/-- What is written where there is nothing. -/
def Node.empty : Node := .scalar { text := [] }

structure Builder where
  tokens : Tokens
  /-- The nodes that bear anchors, in the order of the anchors. -/
  anchors : Array (Bytes × Option Node) := #[]
  /-- The stems of the handles. -/
  handles : List (Bytes × Bytes) := []

abbrev Build := StateT Builder Option

namespace Build

def lex {α : Type} (a : Lexer α) : Build α := fun s =>
  (a s.tokens).map fun (v, tokens) => (v, { s with tokens })

def peek : Build Token := lex Lexer.peek
def advance : Build PUnit := lex Lexer.advance

/-- Takes a token that has to come next. -/
def expect (t : Token) : Build PUnit := do
  if (← peek) ≠ t then failure
  advance

/-- The stem that all common tags share. -/
def commonStem : Bytes := text "tag:yaml.org,2002:"

def commonHandle : Bytes := text "!!"

def defaultHandles : List (Bytes × Bytes) :=
  [(Scan.exclamation, Scan.exclamation), (commonHandle, commonStem)]

/-- A tag without its handle. -/
def resolveTag (handle suffix : Bytes) : Build Bytes := do
  if handle.isEmpty then pure suffix
  else match (← get).handles.lookup handle with
    | some stem => pure (stem ++ suffix)
    | none => failure

/-- A common tag with its handle in place of the stem. -/
def shortTag (tag : Bytes) : Bytes :=
  match Bytes.stripPrefix? commonStem tag with
  | some name => commonHandle ++ name
  | none => tag

def anchor? : Build (Option Bytes) := do
  match ← peek with
  | .anchor name =>
    advance
    pure (some name)
  | _ => pure none

def tag? : Build (Option Bytes) := do
  match ← peek with
  | .tag handle suffix =>
    advance
    pure (some (← resolveTag handle suffix))
  | _ => pure none

/-- Anchor and tag, in either order. -/
def properties : Build (Option Bytes × Option Bytes) := do
  let early ← anchor?
  let tag ← tag?
  let late ← if early.isNone && tag.isSome then anchor? else pure none
  pure (early.or late, tag)

/-- How a scalar with a tag is written; the tag `!` says nothing. -/
def styleOf (tag : Option Bytes) (plain : Bool) : Style :=
  match tag with
  | some t => if t = Scan.exclamation then untagged else .tagged (shortTag t)
  | none => untagged
where untagged : Style := if plain then .plain else .quoted

/-- Builds the node that bears an anchor. -/
def anchored (name : Option Bytes) (build : Build Node) : Build Node := do
  match name with
  | none => build
  | some name =>
    let place := (← get).anchors.size
    modify fun s => { s with anchors := s.anchors.push (name, none) }
    let node ← build
    modify fun s => { s with anchors := s.anchors.setIfInBounds place (name, some node) }
    pure node

/-- The node with an anchor; the latest of several bears it. -/
def target (name : Bytes) : Build (Option Node) := do
  match (← get).anchors.toList.reverse.lookup name with
  | some node => pure node
  | none => failure

/-- A part of a collection, which is missing before the given tokens. -/
def orEmpty (missing : Token → Bool) (build : Build Node) : Build Node := do
  if missing (← peek) then pure .empty else build

/-- The value of a key; there may be none. -/
def valueOr (missing : Token → Bool) (build : Build Node) : Build Node := do
  if (← peek) = .value then do
    advance
    orEmpty missing build
  else pure .empty

def endsBlockPart (t : Token) : Bool := t = .key || t = .value || t = .blockEnd

def endsFlowPart (close t : Token) : Bool := t = .flowEntry || t = close

/-- A node; `block` if it may be a block, and `loose` if the items of a sequence need not be
indented. -/
def node : (fuel : Nat) → (block loose : Bool) → Build Node
  | 0, _, _ => failure
  | fuel + 1, block, loose => do
    match ← peek with
    | .alias name =>
      let t ← target name
      advance
      pure (.alias name t)
    | _ =>
      let (anchor, tag) ← properties
      match ← peek with
      | .scalar content plain =>
        anchored anchor do
          advance
          pure (.scalar ⟨content, styleOf tag plain⟩)
      | .flowSequence => anchored anchor do
          advance
          pure (.sequence (← flowItems fuel true []))
      | .flowMapping => anchored anchor do
          advance
          pure (.mapping (← flowPairs fuel true []))
      | t =>
        if t = .blockEntry && loose then
          anchored anchor do pure (.sequence (← looseItems fuel []))
        else if t = .blockSequence && block then
          anchored anchor do
            advance
            pure (.sequence (← blockItems fuel []))
        else if t = .blockMapping && block then
          anchored anchor do
            advance
            pure (.mapping (← blockPairs fuel []))
        else if anchor.isSome || tag.isSome then
          anchored anchor (pure (.scalar ⟨[], styleOf tag true⟩))
        else failure
where
  /-- Items up to a closing bracket; `done` is in reverse. -/
  flowItems : (fuel : Nat) → (first : Bool) → (done : List Node) → Build (List Node)
    | 0, _, _ => failure
    | fuel + 1, first, done => do
      if (← peek) = .flowSequenceEnd then do
        advance
        pure done.reverse
      else do
        if !first then expect .flowEntry
        match ← peek with
        | .flowSequenceEnd => do
          advance
          pure done.reverse
        | .key => do
          advance
          let key ← if endsFlowPart .flowSequenceEnd (← peek) || (← peek) = .value then do
              advance
              pure Node.empty
            else node fuel false false
          let value ← valueOr (endsFlowPart .flowSequenceEnd) (node fuel false false)
          flowItems fuel false (.mapping [(key, value)] :: done)
        | _ => flowItems fuel false ((← node fuel false false) :: done)
  /-- Pairs up to a closing brace; `done` is in reverse. -/
  flowPairs : (fuel : Nat) → (first : Bool) → (done : List (Node × Node)) →
      Build (List (Node × Node))
    | 0, _, _ => failure
    | fuel + 1, first, done => do
      if (← peek) = .flowMappingEnd then do
        advance
        pure done.reverse
      else do
        if !first then expect .flowEntry
        match ← peek with
        | .flowMappingEnd => do
          advance
          pure done.reverse
        | .key => do
          advance
          let key ← orEmpty (fun t => t = .value || endsFlowPart .flowMappingEnd t)
            (node fuel false false)
          let value ← valueOr (endsFlowPart .flowMappingEnd) (node fuel false false)
          flowPairs fuel false ((key, value) :: done)
        | _ => do
          let key ← node fuel false false
          discard peek
          flowPairs fuel false ((key, .empty) :: done)
  /-- Items at an indentation of their own. -/
  blockItems : (fuel : Nat) → (done : List Node) → Build (List Node)
    | 0, _ => failure
    | fuel + 1, done => do
      match ← peek with
      | .blockEntry => do
        advance
        let item ← orEmpty (fun t => t = .blockEntry || t = .blockEnd) (node fuel true false)
        blockItems fuel (item :: done)
      | .blockEnd => do
        advance
        pure done.reverse
      | _ => failure
  /-- Items at the indentation of the key that they belong to. -/
  looseItems : (fuel : Nat) → (done : List Node) → Build (List Node)
    | 0, _ => failure
    | fuel + 1, done => do
      if (← peek) = .blockEntry then do
        advance
        let item ← orEmpty (fun t => t = .blockEntry || endsBlockPart t) (node fuel true false)
        looseItems fuel (item :: done)
      else pure done.reverse
  blockPairs : (fuel : Nat) → (done : List (Node × Node)) → Build (List (Node × Node))
    | 0, _ => failure
    | fuel + 1, done => do
      match ← peek with
      | .key => do
        advance
        let key ← orEmpty endsBlockPart (node fuel true true)
        let value ← valueOr endsBlockPart (node fuel true true)
        blockPairs fuel ((key, value) :: done)
      | .blockEnd => do
        advance
        pure done.reverse
      | _ => failure

/-- Takes the directives before a document; `versioned` if there was one for the version. -/
def directives : (fuel : Nat) → (versioned : Bool) → Build PUnit
  | 0, _ => failure
  | fuel + 1, versioned => do
    match ← peek with
    | .version major minor => do
      if versioned || major ≠ 1 || minor ≠ 1 then failure
      advance
      directives fuel true
    | .shorthand handle stem => do
      let s ← get
      if (s.handles.lookup handle).isSome then failure
      set { s with handles := s.handles ++ [(handle, stem)] }
      advance
      directives fuel versioned
    | _ => modify fun s => { s with handles := s.handles ++ defaultHandles }

def isDirective : Token → Bool
  | .version .. | .shorthand .. => true
  | _ => false

/-- Whether a document behind its mark is empty. -/
def endsDocument (t : Token) : Bool :=
  isDirective t || t = .documentStart || t = .documentEnd || t = .streamEnd

/-- The first document; `none` if there is none. -/
def document : Build (Option Node) := do
  let fuel := 8 * (← get).tokens.cursor.fuel
  let first ← peek
  if first = .streamEnd then pure none
  else do
    directives fuel false
    let root ← if isDirective first || first = .documentStart then do
        expect .documentStart
        orEmpty endsDocument (node fuel true false)
      else node fuel true false
    discard peek
    pure (some root)

end Build

/-- The first document of a text: `none` if the text is malformed, and `some none` if there is no
document in it. -/
def document? (s : Bytes) : Option (Option Node) :=
  (Build.document.run { tokens := { cursor := .ofSource (.ofBytes s) } }).map (·.1)

end Disguise.Yaml
