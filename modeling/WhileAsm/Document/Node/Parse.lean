import WhileAsm.Document.Node
import WhileAsm.Document.Token.Scan

/-!
# From tokens to a document tree

Only the first document of a text is built. Reading stops at the first token after it, whatever that
token is.

An absent node is an empty plain scalar. In block context it stands right after the indicator it
belongs to, in flow context where the next token starts.
-/

namespace WhileAsm.Document

/-- A named node; it is open until the node is complete. -/
structure Anchor where
  name : String
  node : Option Node
  deriving Inhabited

/-- What reading a document goes on with. -/
structure Reading where
  tokens : List Token
  /-- The tag handles and what they stand for. -/
  handles : List (String × String)
  /-- The anchors so far, first to last. -/
  anchors : Array Anchor := #[]
  deriving Inhabited

abbrev Parse := StateT Reading (Except Fault)

namespace Parse

/-- The tags of the standard types start with this. -/
def standardTag : String := "tag:yaml.org,2002:"

/-- The short form of a standard tag is `!!` and the name of the type. -/
def shortTag (tag : String) : String :=
  if tag.startsWith standardTag then
    "!!" ++ String.ofList (tag.toList.drop standardTag.length)
  else tag

/-- The next token. Looking at a fault is failing with it. -/
def peek : Parse Token := do
  match (← get).tokens with
  | [] => throw (.ofStructure (.unexpected "node content") {} {})
  | t :: _ =>
    match t.kind with
    | .fault f => throw f
    | _ => return t

def skip : Parse Unit := modify fun r => { r with tokens := r.tokens.drop 1 }

/-- An absent node. -/
def absent (m : Mark) : Node := .scalar m.position "" .plain

/-- The form of a scalar with the given tag, if any. A lone `!` is no tag. -/
def formOf (tag : Option String) (plain : Bool) : Form :=
  match tag with
  | some t => if t == "!" then untagged else .tagged (shortTag t)
  | none => untagged
where
  untagged : Form := if plain then .plain else .quoted

/-- Names the node that starts here, and says where that is recorded. -/
def openAnchor (name : Option String) : Parse (Option Nat) := do
  match name with
  | none => return none
  | some n =>
    let slot := (← get).anchors.size
    modify fun r => { r with anchors := r.anchors.push ⟨n, none⟩ }
    return some slot

def closeAnchor (slot : Option Nat) (node : Node) : Parse Node := do
  match slot with
  | none => return node
  | some i =>
    modify fun r => { r with
      anchors := r.anchors.modify i fun a => { a with node := some node } }
    return node

/-- The last node that was given the name. -/
def aliasNode (name : String) (m : Mark) : Parse Node := do
  match (← get).anchors.toList.reverse.find? (·.name == name) with
  | some ⟨_, some target⟩ => return .aliased m.position name target
  | some ⟨_, none⟩ => return .cycle m.position name
  | none => throw (.ofBytes (.unknownAnchor name))

/-- The tag that a handle and a suffix make. -/
def resolveTag (handle suffix : String) (context found : Mark) : Parse String := do
  if handle.isEmpty then return suffix
  else
    match (← get).handles.lookup handle with
    | some target =>
      if (target ++ suffix).isEmpty then throw (.ofStructure .undefinedHandle context found)
      else return target ++ suffix
    | none => throw (.ofStructure .undefinedHandle context found)

/-- What may stand in front of a node: an anchor and a tag, in either order. -/
structure Properties where
  anchor : Option String := none
  tag : Option String := none
  /-- Where the first of them starts. -/
  start : Option Mark := none
  deriving Inhabited

def properties : Parse Properties := do
  let t ← peek
  match t.kind with
  | .anchor name =>
    skip
    let u ← peek
    match u.kind with
    | .tag handle suffix =>
      skip
      let _ ← peek
      return ⟨some name, some (← resolveTag handle suffix t.start u.start), some t.start⟩
    | _ => return ⟨some name, none, some t.start⟩
  | .tag handle suffix =>
    skip
    let u ← peek
    match u.kind with
    | .anchor name =>
      skip
      let _ ← peek
      return ⟨some name, some (← resolveTag handle suffix t.start t.start), some t.start⟩
    | _ => return ⟨none, some (← resolveTag handle suffix t.start t.start), some t.start⟩
  | _ => return {}

/-- Whether a token can only follow an absent key or value in a block mapping. -/
def endsBlockNode : TokenKind → Bool
  | .key | .value | .blockEnd => true
  | _ => false

/-- A node of properties alone, in front of a token that starts no node. -/
def bare (props : Properties) (start : Mark) (t : Token) : Parse Node := do
  if props.anchor.isSome || props.tag.isSome then
    let slot ← openAnchor props.anchor
    closeAnchor slot (.scalar start.position "" (formOf props.tag true))
  else throw (.ofStructure (.unexpected "node content") start t.start)

mutual

/-- A node. Block collections are looked for in block context only; a sequence that is not indented
may be the value of a block mapping. -/
def node (block unindented : Bool) : Nat → Parse Node
  | 0 => do throw (.ofStructure (.unexpected "node content") {} (← peek).start)
  | fuel + 1 => do
    let first ← peek
    match first.kind with
    | .aliased name =>
      skip
      aliasNode name first.start
    | _ =>
      let props ← properties
      let t ← peek
      let start := props.start.getD t.start
      let collect (items : Parse Node) : Parse Node := do
        let slot ← openAnchor props.anchor
        closeAnchor slot (← items)
      match t.kind with
      | .blockEntry =>
        if unindented then
          collect (return .sequence start.position (← unindentedItems fuel))
        else bare props start t
      | .scalar text plain =>
        skip
        collect (return .scalar start.position text (formOf props.tag plain))
      | .flowSequenceStart =>
        skip
        collect (return .sequence start.position (← flowItems t.start true fuel))
      | .flowMappingStart =>
        skip
        collect (return .mapping start.position (← flowEntries t.start true fuel))
      | .blockSequenceStart =>
        if block then
          skip
          collect (return .sequence start.position (← blockItems t.start fuel))
        else bare props start t
      | .blockMappingStart =>
        if block then
          skip
          collect (return .mapping start.position (← blockEntries t.start fuel))
        else bare props start t
      | _ => bare props start t

/-- The items of a block sequence, up to its end. -/
def blockItems (context : Mark) : Nat → Parse (List Node)
  | 0 => return []
  | fuel + 1 => do
    let t ← peek
    match t.kind with
    | .blockEntry =>
      skip
      let u ← peek
      let item ← match u.kind with
        | .blockEntry | .blockEnd => pure (absent t.stop)
        | _ => node true false fuel
      return item :: (← blockItems context fuel)
    | .blockEnd =>
      skip
      return []
    | _ => throw (.ofStructure (.unexpected "'-' indicator") context t.start)

/-- The items of a sequence at the indentation of the mapping around it. -/
def unindentedItems : Nat → Parse (List Node)
  | 0 => return []
  | fuel + 1 => do
    let t ← peek
    match t.kind with
    | .blockEntry =>
      skip
      let u ← peek
      let item ←
        if u.kind == .blockEntry || endsBlockNode u.kind then pure (absent t.stop)
        else node true false fuel
      return item :: (← unindentedItems fuel)
    | _ => return []

/-- The entries of a block mapping, up to its end. -/
def blockEntries (context : Mark) : Nat → Parse (List (Node × Node))
  | 0 => return []
  | fuel + 1 => do
    let t ← peek
    match t.kind with
    | .key =>
      skip
      let u ← peek
      let k ← if endsBlockNode u.kind then pure (absent t.stop) else node true true fuel
      let v ← blockValue fuel
      return (k, v) :: (← blockEntries context fuel)
    | .blockEnd =>
      skip
      return []
    | _ => throw (.ofStructure (.unexpected "key") context t.start)

def blockValue : Nat → Parse Node
  | 0 => do return absent (← peek).start
  | fuel + 1 => do
    let t ← peek
    match t.kind with
    | .value =>
      skip
      let u ← peek
      if endsBlockNode u.kind then return absent t.stop else node true true fuel
    | _ => return absent t.start

/-- The items of a flow sequence, up to its end. An item may be a single entry of a mapping. -/
def flowItems (context : Mark) (first : Bool) : Nat → Parse (List Node)
  | 0 => return []
  | fuel + 1 => do
    let t ← peek
    if t.kind == .flowSequenceEnd then
      skip
      return []
    else
      let t ←
        if first then pure t
        else if t.kind == .flowEntry then do
          skip
          peek
        else throw (.ofStructure (.unexpected "',' or ']'") context t.start)
      match t.kind with
      | .key =>
        skip
        let k ← pairKey fuel
        let v ← pairValue fuel
        return .mapping t.start.position [(k, v)] :: (← flowItems context false fuel)
      | .flowSequenceEnd =>
        skip
        return []
      | _ =>
        let item ← node false false fuel
        return item :: (← flowItems context false fuel)

/-- The key of a single entry in a flow sequence. An absent key swallows the token after it. -/
def pairKey : Nat → Parse Node
  | 0 => do return absent (← peek).start
  | fuel + 1 => do
    let t ← peek
    match t.kind with
    | .value | .flowEntry | .flowSequenceEnd =>
      skip
      return absent t.stop
    | _ => node false false fuel

def pairValue : Nat → Parse Node
  | 0 => do return absent (← peek).start
  | fuel + 1 => do
    let t ← peek
    match t.kind with
    | .value =>
      skip
      let u ← peek
      match u.kind with
      | .flowEntry | .flowSequenceEnd => return absent t.start
      | _ => node false false fuel
    | _ => return absent t.start

/-- The entries of a flow mapping, up to its end. An item without an indicator is a key without a
value. -/
def flowEntries (context : Mark) (first : Bool) : Nat → Parse (List (Node × Node))
  | 0 => return []
  | fuel + 1 => do
    let t ← peek
    if t.kind == .flowMappingEnd then
      skip
      return []
    else
      let t ←
        if first then pure t
        else if t.kind == .flowEntry then do
          skip
          peek
        else throw (.ofStructure (.unexpected "',' or '\x7d'") context t.start)
      match t.kind with
      | .key =>
        skip
        let u ← peek
        let k ← match u.kind with
          | .value | .flowEntry | .flowMappingEnd => pure (absent u.start)
          | _ => node false false fuel
        let v ← flowValue fuel
        return (k, v) :: (← flowEntries context false fuel)
      | .flowMappingEnd =>
        skip
        return []
      | _ =>
        let k ← node false false fuel
        let v := absent (← peek).start
        return (k, v) :: (← flowEntries context false fuel)

def flowValue : Nat → Parse Node
  | 0 => do return absent (← peek).start
  | fuel + 1 => do
    let t ← peek
    match t.kind with
    | .value =>
      skip
      let u ← peek
      match u.kind with
      | .flowEntry | .flowMappingEnd => return absent u.start
      | _ => node false false fuel
    | _ => return absent t.start

end

/-! ## Documents -/

/-- The handles that every document knows. -/
def standardHandles : List (String × String) := [("!", "!"), ("!!", standardTag)]

/-- Reads the directives in front of a document. -/
def directives : Nat → Bool → List (String × String) → Parse Unit
  | 0, _, _ => return ()
  | fuel + 1, versioned, handles => do
    let t ← peek
    match t.kind with
    | .version major minor =>
      if versioned then throw (.ofStructure (.duplicateDirective "YAML") {} t.start)
      else if major ≠ 1 || minor ≠ 1 then throw (.ofStructure .incompatibleVersion {} t.start)
      else
        skip
        directives fuel true handles
    | .handle name target =>
      if (handles.lookup name).isSome then
        throw (.ofStructure (.duplicateDirective "TAG") {} t.start)
      else
        skip
        directives fuel versioned (handles ++ [(name, target)])
    | _ => modify fun r => { r with handles := handles ++ standardHandles }

/-- The first document, if there is one. -/
def document : Parse (Option Node) := do
  let fuel := 2 * (← get).tokens.length + 2
  let t ← peek
  let root ← match t.kind with
    | .streamEnd => return none
    | .version _ _ | .handle _ _ | .documentStart => do
      directives fuel false []
      let t ← peek
      if t.kind ≠ .documentStart then
        throw (.ofStructure (.unexpected "<document start>") {} t.start)
      skip
      let t ← peek
      match t.kind with
      | .version _ _ | .handle _ _ | .documentStart | .documentEnd | .streamEnd =>
        pure (absent t.start)
      | _ => node true false fuel
    | _ => node true false fuel
  let _ ← peek
  return some root

end Parse

/-- The root of the first document of a text, `none` if the text holds no document. -/
def parse (bytes : ByteArray) : Except Fault (Option Node) :=
  let tokens := (decodeText bytes.toList).tokens
  (Parse.document.run { tokens, handles := Parse.standardHandles }).map (·.1)

end WhileAsm.Document
