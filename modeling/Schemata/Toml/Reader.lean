import Schemata.Toml.Scalar
/-!
# Reading TOML

Every part returns what it read together with the characters after it, or nothing when the text is
not TOML.
-/
namespace Schemata
namespace Toml

def isSpace (c : Char) : Bool := c = ' ' || c = '\t'

def afterSpace (cs : List Char) : List Char := cs.dropWhile isSpace

def isControl (c : Char) : Bool := (c.toNat < 0x20 && c != '\t') || c = '\x7f'

def newline? : List Char → Option (List Char)
  | '\n' :: cs => some cs
  | '\r' :: '\n' :: cs => some cs
  | _ => none

/-- The text after a comment, up to its line end. -/
def comment? : List Char → Option (List Char)
  | [] => some []
  | '\n' :: cs => some ('\n' :: cs)
  | '\r' :: '\n' :: cs => some ('\r' :: '\n' :: cs)
  | c :: cs => if isControl c then none else comment? cs

/-- The text after the end of a statement: spaces, a comment, and the line end. -/
def lineEnd? (cs : List Char) : Option (List Char) := do
  let cs ← match afterSpace cs with
    | '#' :: cs => comment? cs
    | cs => some cs
  if cs.isEmpty then some [] else newline? cs

def afterLines? : Nat → List Char → Option (List Char)
  | 0, cs => some cs
  | fuel + 1, cs =>
    match afterSpace cs with
    | '#' :: cs => (comment? cs).bind (afterLines? fuel)
    | cs =>
      match newline? cs with
      | some cs => afterLines? fuel cs
      | none => some cs

/-! ## Strings -/

def scalarValue? (ds : List Char) : Option Char :=
  if ds.all (isDigitIn 16) then
    let n := valueIn 16 ds
    if n < 0xD800 || (0xDFFF < n && n < 0x110000) then some (Char.ofNat n) else none
  else none

/-- The character of an escape with a letter of its own. -/
def letterEscape? (c : Char) : Option Char :=
  if c = '"' || c = '\\' then some c
  else if c = 'b' then some '\x08'
  else if c = 't' then some '\t'
  else if c = 'n' then some '\n'
  else if c = 'f' then some '\x0c'
  else if c = 'r' then some '\r'
  else none

def escape? : List Char → Option (Char × List Char)
  | [] => none
  | 'u' :: cs =>
    if cs.length < 4 then none else (scalarValue? (cs.take 4)).map fun c => (c, cs.drop 4)
  | 'U' :: cs =>
    if cs.length < 8 then none else (scalarValue? (cs.take 8)).map fun c => (c, cs.drop 8)
  | c :: cs => (letterEscape? c).map fun c => (c, cs)

/-- A string on one line, after its opening quote; with escapes or literally. -/
def lineString? (quote : Char) (escapes : Bool) :
    Nat → List Char → List Char → Option (String × List Char)
  | 0, _, _ => none
  | _, _, [] => none
  | fuel + 1, done, c :: cs =>
    if c = quote then some (String.ofList done.reverse, cs)
    else if c = '\\' && escapes then do
      let (e, cs) ← escape? cs
      lineString? quote escapes fuel (e :: done) cs
    else if isControl c then none
    else lineString? quote escapes fuel (c :: done) cs

/-- The text after a backslash at the end of a line: the line ends and spaces that follow do not
count. -/
def afterFold? (cs : List Char) : Option (List Char) := do
  let cs ← newline? (afterSpace cs)
  return cs.dropWhile fun c => isSpace c || c = '\n' || c = '\r'

/-- A string over several lines, after its opening quotes.  Up to two quotes may stand before the
closing ones. -/
def linesString? (quote : Char) (escapes : Bool) :
    Nat → List Char → List Char → Option (String × List Char)
  | 0, _, _ => none
  | _, _, [] => none
  | fuel + 1, done, c :: cs =>
    if c = quote then
      let quotes := (c :: cs).takeWhile fun d => d = quote
      let rest := (c :: cs).dropWhile fun d => d = quote
      if quotes.length < 3 then linesString? quote escapes fuel (quotes ++ done) rest
      else if quotes.length > 5 then none
      else some (String.ofList ((quotes.drop 3 ++ done).reverse), rest)
    else if c = '\\' && escapes then
      match afterFold? cs with
      | some cs => linesString? quote escapes fuel done cs
      | none => do
        let (e, cs) ← escape? cs
        linesString? quote escapes fuel (e :: done) cs
    else if c = '\n' then linesString? quote escapes fuel (c :: done) cs
    else if c = '\r' then
      match cs with
      | '\n' :: cs => linesString? quote escapes fuel ('\n' :: '\r' :: done) cs
      | _ => none
    else if isControl c then none
    else linesString? quote escapes fuel (c :: done) cs

def string? (cs : List Char) : Option (String × List Char) :=
  let fuel := cs.length + 1
  match cs with
  | '"' :: '"' :: '"' :: cs => linesString? '"' true fuel [] ((newline? cs).getD cs)
  | '\'' :: '\'' :: '\'' :: cs => linesString? '\'' false fuel [] ((newline? cs).getD cs)
  | '"' :: cs => lineString? '"' true fuel [] cs
  | '\'' :: cs => lineString? '\'' false fuel [] cs
  | _ => none

/-! ## Keys -/

def isBare (c : Char) : Bool := c.isAlphanum || c = '_' || c = '-'

def simpleKey? (cs : List Char) : Option (String × List Char) :=
  match cs with
  | '"' :: cs => lineString? '"' true (cs.length + 1) [] cs
  | '\'' :: cs => lineString? '\'' false (cs.length + 1) [] cs
  | cs =>
    let name := cs.takeWhile isBare
    if name.isEmpty then none else some (String.ofList name, cs.dropWhile isBare)

/-- A key, with dots between its parts and spaces around it. -/
def key? : Nat → List Char → Option (List String × List Char)
  | 0, _ => none
  | fuel + 1, cs => do
    let (name, cs) ← simpleKey? (afterSpace cs)
    match afterSpace cs with
    | '.' :: cs => do
      let (names, cs) ← key? fuel cs
      return (name :: names, cs)
    | cs => return ([name], cs)

/-! ## Values -/

def isWord (c : Char) : Bool := isBare c || c = '+' || c = '.' || c = ':'

/-- A word; a date may be followed by a space and a clock. -/
def word (cs : List Char) : List Char × List Char :=
  let first := cs.takeWhile isWord
  let rest := cs.dropWhile isWord
  match rest with
  | ' ' :: c :: more =>
    if date? first = some [] && c.isDigit then
      (first ++ ' ' :: (c :: more).takeWhile isWord, (c :: more).dropWhile isWord)
    else (first, rest)
  | _ => (first, rest)

mutual

def value? : Nat → List Char → Option (Value × List Char)
  | 0, _ => none
  | fuel + 1, cs =>
    match cs with
    | '[' :: cs => do
      let (items, cs) ← items? fuel cs
      return (.array items, cs)
    | '{' :: cs =>
      match afterSpace cs with
      | '}' :: cs => some (.table .inline [], cs)
      | cs => do
        let (members, cs) ← members? fuel [] cs
        return (.table .inline members, cs)
    | c :: cs =>
      if c = '"' || c = '\'' then (string? (c :: cs)).map fun r => (.string r.1, r.2)
      else
        let (letters, rest) := word (c :: cs)
        (scalar? letters).map fun v => (v, rest)
    | [] => none

/-- The items of an array, each on a line or not, with a comma after the last or not. -/
def items? : Nat → List Char → Option (List Value × List Char)
  | 0, _ => none
  | fuel + 1, cs => do
    match ← afterLines? (cs.length + 1) cs with
    | ']' :: cs => return ([], cs)
    | cs => do
      let (item, cs) ← value? fuel cs
      match ← afterLines? (cs.length + 1) cs with
      | ']' :: cs => return ([item], cs)
      | ',' :: cs => do
        let (items, cs) ← items? fuel cs
        return (item :: items, cs)
      | _ => none

def members? : Nat → Table → List Char → Option (Table × List Char)
  | 0, _, _ => none
  | fuel + 1, before, cs => do
    let (key, cs) ← key? (cs.length + 1) cs
    match cs with
    | '=' :: cs => do
      let (value, cs) ← value? fuel (afterSpace cs)
      let table ← put? value key before
      match afterSpace cs with
      | '}' :: cs => return (table, cs)
      | ',' :: cs => members? fuel table cs
      | _ => none
    | _ => none

end

/-! ## Documents -/

/-- A document being read: its table, and the path of the table that statements fill. -/
structure State where
  root : Table := []
  current : List String := []

/-- The path of a header, and what follows its brackets. -/
def header? (brackets : Nat) (cs : List Char) : Option (List String × List Char) := do
  let (path, cs) ← key? (cs.length + 1) cs
  if cs.take brackets = List.replicate brackets ']' then some (path, cs.drop brackets) else none

def State.open? (s : State) (path : List String) (openLast : String → Table → Option Table) :
    Option State := do
  let name ← path.getLast?
  let root ← change? (openLast name) path.dropLast s.root
  return ⟨root, path⟩

/-- A statement: a header or a value under a key. -/
def statement? (s : State) (cs : List Char) : Option (State × List Char) :=
  match cs with
  | '[' :: '[' :: cs => do
    let (path, cs) ← header? 2 cs
    return (← s.open? path openNext?, cs)
  | '[' :: cs => do
    let (path, cs) ← header? 1 cs
    return (← s.open? path openTable?, cs)
  | cs => do
    let (key, cs) ← key? (cs.length + 1) cs
    match cs with
    | '=' :: cs => do
      let (value, cs) ← value? (2 * cs.length + 2) (afterSpace cs)
      let root ← change? (put? value key) s.current s.root
      return ({ s with root }, cs)
    | _ => none

def statements? : Nat → State → List Char → Option Table
  | 0, _, _ => none
  | fuel + 1, s, cs => do
    match ← afterLines? (cs.length + 1) cs with
    | [] => return s.root
    | cs => do
      let (s, cs) ← statement? s cs
      let cs ← lineEnd? cs
      statements? fuel s cs

/-- **The table of a document.**  A byte order mark may stand in front. -/
def read? (text : String) : Option Table :=
  let cs := match text.toList with
    | '\ufeff' :: cs => cs
    | cs => cs
  statements? (cs.length + 1) {} cs

end Toml
end Schemata
