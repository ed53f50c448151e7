/-
  SyncLedger/Yaml/Node.lean
  =========================
  **YAML documents as trees, and what their scalars mean.**

  `Node.ofTokens?` builds the tree of a text that holds exactly one document.  An alias stands
  for the node that last took its name; one that stands inside the node it names is kept as
  such and means nothing.

  A scalar has no type of its own: it is a text, and a plain one is besides a number, a flag or
  null if it is written like one.
-/
import SyncLedger.Yaml.Token
import SyncLedger.Yaml.Word
import SyncLedger.Config.Document

namespace SyncLedger

namespace Yaml

inductive Node where
  | scalar (text : String) (style : Style) (tag : Option String)
  | sequence (items : List Node)
  | mapping (fields : List (Node × Node))
  /-- An alias inside the node that it names. -/
  | cyclic

def Node.empty : Node := .scalar "" .plain none

/-- The nodes that have taken a name, latest first. -/
abbrev Anchors := List (String × Node)

/-- Reading consumes tokens and collects anchors. -/
abbrev Reader := StateT (List Token × Anchors) Option

namespace Reader

def peek : Reader (Option Token) := do return (← get).1.head?

def advance : Reader Unit := modify fun (ts, as) => (ts.drop 1, as)

def define (name : String) (n : Node) : Reader Unit := modify fun (ts, as) => (ts, (name, n) :: as)

/-- Whether the next token is one of a list; at the end none is. -/
def isNext (ts : List Token) : Reader Bool := do
  match ← peek with
  | some t => return ts.contains t
  | none => return false

def expect (t : Token) : Reader Unit := do
  if ← isNext [t] then advance else failure

/-- Anchor and tag in front of a node, in either order and each once. -/
def properties : Reader (Option String × Option String) := do
  let anchor? : Reader (Option String) := do
    match ← peek with
    | some (.anchor name) => advance; return some name
    | _ => return none
  let tag? : Reader (Option String) := do
    match ← peek with
    | some (.tag name) => advance; return some name
    | _ => return none
  match ← anchor? with
  | some a => return (some a, ← tag?)
  | none =>
    let t ← tag?
    return (← anchor?, t)

mutual

/-- A node.  Within brackets no block may begin; after a key a sequence may stand at the
    indentation of the mapping. -/
def node (block indentless : Bool) : (fuel : Nat) → Reader Node
  | 0 => failure
  | fuel + 1 => do
    match ← peek with
    | some (.alias name) =>
      advance
      match (← get).2.lookup name with
      | some n => return n
      | none => failure
    | _ =>
      let (anchor, tag) ← properties
      match anchor with
      | some name => define name .cyclic
      | none => pure ()
      let n ← content block indentless (anchor.isSome || tag.isSome) tag fuel
      match anchor with
      | some name => define name n
      | none => pure ()
      return n

/-- A node after its properties; with properties it may be left out.  The bare mark says no more
    of a scalar than that it is one. -/
def content (block indentless hasProperties : Bool) (tag : Option String) :
    (fuel : Nat) → Reader Node
  | 0 => failure
  | fuel + 1 => do
    match ← peek with
    | some (.scalar text style) => advance; return .scalar text style (tag.filter (· ≠ "!"))
    | some .flowSequenceStart => advance; return .sequence (← flowItems true fuel)
    | some .flowMappingStart => advance; return .mapping (← flowFields true fuel)
    | some .blockEntry =>
      if indentless then return .sequence (← indentlessItems fuel)
      else if hasProperties then return .scalar "" .plain tag
      else failure
    | some .blockSequenceStart =>
      if block then
        advance
        return .sequence (← blockItems fuel)
      else if hasProperties then return .scalar "" .plain tag
      else failure
    | some .blockMappingStart =>
      if block then
        advance
        return .mapping (← blockFields fuel)
      else if hasProperties then return .scalar "" .plain tag
      else failure
    | _ => if hasProperties then return .scalar "" .plain tag else failure

/-- A node, unless one of the given tokens shows that it is left out. -/
def nodeUnless (ends : List Token) (block indentless : Bool) : (fuel : Nat) → Reader Node
  | 0 => failure
  | fuel + 1 => do
    if ← isNext ends then return .empty
    node block indentless fuel

/-- The entries of a block sequence up to its end. -/
def blockItems : (fuel : Nat) → Reader (List Node)
  | 0 => failure
  | fuel + 1 => do
    if ← isNext [.blockEnd] then
      advance
      return []
    expect .blockEntry
    let n ← nodeUnless [.blockEntry, .blockEnd] true false fuel
    return n :: (← blockItems fuel)

/-- The entries of a sequence that stands at the indentation of its mapping. -/
def indentlessItems : (fuel : Nat) → Reader (List Node)
  | 0 => failure
  | fuel + 1 => do
    if ← isNext [.blockEntry] then
      advance
      let n ← nodeUnless [.blockEntry, .key, .value, .blockEnd] true false fuel
      return n :: (← indentlessItems fuel)
    else return []

/-- The fields of a block mapping up to its end. -/
def blockFields : (fuel : Nat) → Reader (List (Node × Node))
  | 0 => failure
  | fuel + 1 => do
    if ← isNext [.blockEnd] then
      advance
      return []
    expect .key
    let k ← nodeUnless [.key, .value, .blockEnd] true true fuel
    let v ← if ← isNext [.value] then do
        advance
        nodeUnless [.key, .value, .blockEnd] true true fuel
      else pure .empty
    return (k, v) :: (← blockFields fuel)

/-- The items of a bracketed sequence up to its end; a key there makes a mapping of one field. -/
def flowItems (first : Bool) : (fuel : Nat) → Reader (List Node)
  | 0 => failure
  | fuel + 1 => do
    if ← isNext [.flowSequenceEnd] then
      advance
      return []
    unless first do expect .flowEntry
    if ← isNext [.flowSequenceEnd] then
      advance
      return []
    let n ← if ← isNext [.key] then do
        advance
        let k ← if ← isNext [.value, .flowEntry, .flowSequenceEnd] then do
            advance
            pure Node.empty
          else node false false fuel
        let v ← if ← isNext [.value] then do
            advance
            nodeUnless [.flowEntry, .flowSequenceEnd] false false fuel
          else pure .empty
        pure (Node.mapping [(k, v)])
      else node false false fuel
    return n :: (← flowItems false fuel)

/-- The fields of a bracketed mapping up to its end. -/
def flowFields (first : Bool) : (fuel : Nat) → Reader (List (Node × Node))
  | 0 => failure
  | fuel + 1 => do
    if ← isNext [.flowMappingEnd] then
      advance
      return []
    unless first do expect .flowEntry
    if ← isNext [.flowMappingEnd] then
      advance
      return []
    let field ← if ← isNext [.key] then do
        advance
        let k ← nodeUnless [.value, .flowEntry, .flowMappingEnd] false false fuel
        let v ← if ← isNext [.value] then do
            advance
            nodeUnless [.flowEntry, .flowMappingEnd] false false fuel
          else pure .empty
        pure (k, v)
      else do
        let k ← node false false fuel
        pure (k, Node.empty)
    return field :: (← flowFields false fuel)

end

/-- Past every token at the front that is equal to a given one. -/
def skipAll (t : Token) : Reader Unit := modify fun (ts, as) => (ts.dropWhile (· == t), as)

def document (fuel : Nat) : Reader Node := do
  let hasDirectives ← isNext [.directive]
  skipAll .directive
  let explicit ← isNext [.documentStart]
  if explicit then advance
  if hasDirectives && !explicit then failure
  let n ← if ← isNext [.documentStart, .documentEnd, .directive] then pure .empty
    else match ← peek with
      | none => if explicit then pure .empty else failure
      | some _ => node true false fuel
  skipAll .documentEnd
  match ← peek with
  | none => return n
  | some _ => failure

end Reader

/-- The tree of a text that holds exactly one document. -/
def Node.ofTokens? (ts : List Token) : Option Node :=
  (Reader.document (4 * ts.length + 8)).run' (ts, [])

def Node.parse? (text : String) : Option Node := (tokens? text).bind Node.ofTokens?

/-! ### What scalars mean -/

/-- A scalar that a typed value may be read from: a plain one, or a literal one that is tagged
    as such. -/
def isTypedAs (tag : String) (style : Style) (written : Option String) : Bool :=
  style == .plain || (style == .literal && written == some tag)

end Yaml

/-- In YAML any scalar is a text, and no list stands for fields. -/
instance : Document Yaml.Node where
  null?
    | .scalar text .plain none => some (text.isEmpty || Yaml.isNullWord text)
    | .scalar text .plain (some tag) =>
      if tag ≠ "tag:yaml.org,2002:null" then some false
      else if Yaml.isNullWord text then some true
      else none
    | _ => some false
  natural?
    | .scalar text style tag =>
      if Yaml.isTypedAs "tag:yaml.org,2002:int" style tag then
        Yaml.naturalBelow? UInt64.size text.toList
      else none
    | _ => none
  flag?
    | .scalar text style tag =>
      if Yaml.isTypedAs "tag:yaml.org,2002:bool" style tag then Yaml.flagWord? text else none
    | _ => none
  text?
    | .scalar text _ _ => some text
    | _ => none
  fields?
    | .mapping fs => some <| fs.map fun (k, v) => match k with
      | .scalar name _ _ => (some name, v)
      | _ => (none, v)
    | _ => none
  items? _ := none

end SyncLedger
