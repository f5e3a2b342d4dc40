import Buildbox.Json.Reader

/-! Reading TOML documents. The result is a JSON object: tables are objects, and a date or time is
an object with one member that holds its text. -/

namespace Buildbox.Toml

/-! ## Blanks, comments and line ends -/

def isBlank (c : Char) : Bool :=
  c == ' ' || c == '\t'

def skipBlank (cs : List Char) : List Char :=
  cs.dropWhile isBlank

def isPlain (c : Char) : Bool :=
  c == '\t' || (0x20 ≤ c.toNat && c.toNat ≠ 0x7F)

def newline? : List Char → Option (List Char)
  | '\n' :: rest => some rest
  | '\r' :: '\n' :: rest => some rest
  | _ => none

def lineEnd? : List Char → Option (List Char)
  | [] => some []
  | cs => newline? cs

def skipComment : List Char → List Char
  | '#' :: rest => rest.dropWhile isPlain
  | cs => cs

def trailing? (cs : List Char) : Option (List Char) :=
  lineEnd? (skipComment (skipBlank cs))

def skipFiller : (fuel : Nat) → List Char → List Char
  | 0, cs => cs
  | fuel + 1, cs =>
    match newline? (skipComment (skipBlank cs)) with
    | some rest => skipFiller fuel rest
    | none => skipBlank cs

/-! ## Strings -/

def scalar? (digits : Nat) (cs : List Char) : Option (Char × List Char) := do
  let given := cs.take digits
  if given.length < digits then none
  let values ← given.mapM Json.digitValue?
  let n := values.foldl (fun n d => 16 * n + d) 0
  if h : n.isValidChar then some (Char.ofNatAux n h, cs.drop digits) else none

def escape? : List Char → Option (Char × List Char)
  | 'b' :: rest => some ('\x08', rest)
  | 't' :: rest => some ('\t', rest)
  | 'n' :: rest => some ('\n', rest)
  | 'f' :: rest => some ('\x0c', rest)
  | 'r' :: rest => some ('\r', rest)
  | '"' :: rest => some ('"', rest)
  | '\\' :: rest => some ('\\', rest)
  | 'u' :: rest => scalar? 4 rest
  | 'U' :: rest => scalar? 8 rest
  | _ => none

def readBasic : (fuel : Nat) → List Char → Option (List Char × List Char)
  | 0, _ => none
  | _, [] => none
  | _, '"' :: rest => some ([], rest)
  | fuel + 1, '\\' :: rest => do
    let (c, rest) ← escape? rest
    let (cs, rest) ← readBasic fuel rest
    some (c :: cs, rest)
  | fuel + 1, c :: rest => do
    if ! isPlain c then none
    let (cs, rest) ← readBasic fuel rest
    some (c :: cs, rest)

def readLiteral (cs : List Char) : Option (List Char × List Char) :=
  let body := cs.takeWhile (· ≠ '\'')
  match cs.drop body.length with
  | '\'' :: rest => if body.all isPlain then some (body, rest) else none
  | _ => none

def skipLines : (fuel : Nat) → List Char → List Char
  | 0, cs => cs
  | fuel + 1, cs =>
    match newline? (skipBlank cs) with
    | some rest => skipLines fuel rest
    | none => skipBlank cs

def joinedLine? (cs : List Char) : Option (List Char) :=
  (newline? (skipBlank cs)).map fun rest => skipLines rest.length rest

def readLines (quote : Char) (escapes : Bool) : (fuel : Nat) → List Char →
    Option (List Char × List Char)
  | 0, _ => none
  | _, [] => none
  | fuel + 1, c :: rest => do
    let run := (c :: rest).takeWhile (· = quote)
    if 3 ≤ run.length then
      -- Right before the closing quotes there may be two that belong to the text.
      if run.length ≤ 5 then some (run.drop 3, (c :: rest).drop run.length) else none
    else if c = '\\' ∧ escapes then
      match joinedLine? rest with
      | some rest => readLines quote escapes fuel rest
      | none =>
        let (c, rest) ← escape? rest
        let (cs, rest) ← readLines quote escapes fuel rest
        some (c :: cs, rest)
    else match newline? (c :: rest) with
      | some rest =>
        let (cs, rest) ← readLines quote escapes fuel rest
        some ('\n' :: cs, rest)
      | none =>
        if ! isPlain c then none
        let (cs, rest) ← readLines quote escapes fuel rest
        some (c :: cs, rest)

def readMultiline (quote : Char) (escapes : Bool) (fuel : Nat) (cs : List Char) :
    Option (List Char × List Char) :=
  readLines quote escapes fuel ((newline? cs).getD cs)

def readString (fuel : Nat) : List Char → Option (List Char × List Char)
  | '"' :: '"' :: '"' :: rest => readMultiline '"' true fuel rest
  | '\'' :: '\'' :: '\'' :: rest => readMultiline '\'' false fuel rest
  | '"' :: rest => readBasic fuel rest
  | '\'' :: rest => readLiteral rest
  | _ => none

/-! ## Numbers -/

def isDigitOf (base : Nat) (c : Char) : Bool :=
  match Json.digitValue? c with
  | some d => d < base
  | none => false

def readDigits (base : Nat) : List Char → List Char × List Char
  | c :: rest =>
    if isDigitOf base c then
      match rest with
      | '_' :: d :: more =>
        if isDigitOf base d then
          let (ds, after) := readDigits base (d :: more)
          (c :: ds, after)
        else ([c], rest)
      | rest =>
        let (ds, after) := readDigits base rest
        (c :: ds, after)
    else ([], c :: rest)
  | [] => ([], [])

def valueOf (base : Nat) (digits : List Char) : Nat :=
  digits.foldl (fun n c => base * n + (Json.digitValue? c).getD 0) 0

def readSign : List Char → Bool × List Char
  | '+' :: rest => (false, rest)
  | '-' :: rest => (true, rest)
  | cs => (false, cs)

def readWhole (cs : List Char) : Option (List Char × List Char) :=
  match cs with
  | '0' :: rest => some (['0'], rest)
  | cs =>
    match readDigits 10 cs with
    | ([], _) => none
    | (digits, rest) => some (digits, rest)

def integer? (negative : Bool) (n : Nat) : Option Json :=
  if negative then (if n ≤ 1 <<< 63 then some (.int (-n)) else none)
  else if n < 1 <<< 63 then some (.int n) else none

def readBased (base : Nat) (cs : List Char) : Option (Json × List Char) :=
  match readDigits base cs with
  | ([], _) => none
  | (digits, rest) => (integer? false (valueOf base digits)).map (·, rest)

def readInteger (cs : List Char) : Option (Json × List Char) :=
  match cs with
  | '0' :: 'x' :: rest => readBased 16 rest
  | '0' :: 'o' :: rest => readBased 8 rest
  | '0' :: 'b' :: rest => readBased 2 rest
  | cs => do
    let (negative, rest) := readSign cs
    let (digits, rest) ← readWhole rest
    some (← integer? negative (valueOf 10 digits), rest)

def readPart : List Char → Option (List Char × List Char)
  | '.' :: rest =>
    match readDigits 10 rest with
    | ([], _) => none
    | (digits, rest) => some (digits, rest)
  | cs => some ([], cs)

def readExponent : List Char → Option (Option Int × List Char)
  | c :: rest =>
    if c = 'e' ∨ c = 'E' then
      let (negative, rest) := readSign rest
      match readDigits 10 rest with
      | ([], _) => none
      | (digits, rest) =>
        let n : Int := valueOf 10 digits
        some (some (if negative then -n else n), rest)
    else some (none, c :: rest)
  | [] => some (none, [])

/-- Holds when `digits · 10 ^ scale` rounds beyond the largest float. -/
def overflows (digits : List Char) (scale : Int) : Bool :=
  let digits := digits.dropWhile (· == '0')
  let size : Int := digits.length + scale
  if digits.isEmpty || size < 300 then false
  else if size > 310 then true
  else
    let m := Json.digitsValue digits
    let bound := 1 <<< 1024 - 1 <<< 970
    if scale < 0 then bound * Nat.pow 10 (-scale).toNat ≤ m
    else bound ≤ m * Nat.pow 10 scale.toNat

def readFloat (cs : List Char) : Option (Json × List Char) := do
  let (negative, body) := readSign cs
  match body with
  | 'i' :: 'n' :: 'f' :: rest => some (.fraction "inf", rest)
  | 'n' :: 'a' :: 'n' :: rest => some (.fraction "nan", rest)
  | body =>
    let (whole, rest) ← readWhole body
    let (part, rest) ← readPart rest
    let (exponent, rest) ← readExponent rest
    if part.isEmpty && exponent.isNone then none
    if ! negative && overflows (whole ++ part) (exponent.getD 0 - part.length) then none
    some (.fraction (String.ofList (cs.take (cs.length - rest.length))), rest)

/-! ## Dates and times -/

def readField (digits low high : Nat) (cs : List Char) : Option (Nat × List Char) :=
  let given := cs.take digits
  if given.length = digits ∧ given.all Json.isDigit then
    let n := Json.digitsValue given
    if low ≤ n ∧ n ≤ high then some (n, cs.drop digits) else none
  else none

def expect (c : Char) : List Char → Option (List Char)
  | d :: rest => if d = c then some rest else none
  | [] => none

def daysOf (year month : Nat) : Nat :=
  if month = 2 then
    if year % 4 = 0 ∧ (year % 100 ≠ 0 ∨ year % 400 = 0) then 29 else 28
  else if month = 4 ∨ month = 6 ∨ month = 9 ∨ month = 11 then 30
  else 31

def afterDate? (cs : List Char) : Option (List Char) := do
  let (year, rest) ← readField 4 0 9999 cs
  let (month, rest) ← readField 2 1 12 (← expect '-' rest)
  let (_, rest) ← readField 2 1 (daysOf year month) (← expect '-' rest)
  some rest

def afterTime? (cs : List Char) : Option (List Char) := do
  let (_, rest) ← readField 2 0 23 cs
  let (_, rest) ← readField 2 0 59 (← expect ':' rest)
  let (_, rest) ← readField 2 0 60 (← expect ':' rest)
  match rest with
  | '.' :: rest =>
    if (rest.takeWhile Json.isDigit).isEmpty then none else some (rest.dropWhile Json.isDigit)
  | rest => some rest

def afterOffset? (cs : List Char) : Option (List Char) :=
  match cs with
  | [] => some []
  | c :: rest =>
    if c = 'Z' ∨ c = 'z' then some rest
    else if c = '+' ∨ c = '-' then do
      let (_, rest) ← readField 2 0 23 rest
      let (_, rest) ← readField 2 0 59 (← expect ':' rest)
      some rest
    else some (c :: rest)

def afterDateTime? (cs : List Char) : Option (List Char) :=
  match afterDate? cs with
  | none => afterTime? cs
  | some rest =>
    match rest with
    | c :: time =>
      if c = 'T' ∨ c = 't' ∨ c = ' ' then
        match afterTime? time with
        | some rest => afterOffset? rest
        | none => some (c :: time)
      else some (c :: time)
    | [] => some []

def readDateTime (cs : List Char) : Option (Json × List Char) :=
  (afterDateTime? cs).map fun rest =>
    (.obj [("datetime", .str (String.ofList (cs.take (cs.length - rest.length))))], rest)

/-! ## Keys -/

def isBare (c : Char) : Bool :=
  c.isAlphanum || c == '_' || c == '-'

def readKeyPart : List Char → Option (String × List Char)
  | '"' :: rest => (readBasic (rest.length + 1) rest).map fun (k, rest) => (String.ofList k, rest)
  | '\'' :: rest => (readLiteral rest).map fun (k, rest) => (String.ofList k, rest)
  | cs =>
    match cs.takeWhile isBare with
    | [] => none
    | k => some (String.ofList k, cs.dropWhile isBare)

def depthLimit : Nat := 80

def partLimit : Nat := 79

def readKey : (fuel : Nat) → List Char → Option (List String × List Char)
  | 0, _ => none
  | fuel + 1, cs => do
    let (k, rest) ← readKeyPart (skipBlank cs)
    match skipBlank rest with
    | '.' :: rest =>
      let (ks, rest) ← readKey fuel rest
      some (k :: ks, rest)
    | rest => some ([k], rest)

/-! ## Tables -/

inductive Item where
  | value (v : Json)
  | table (implicit dotted : Bool) (entries : List (String × Item))
  | tables (elements : List Item)
  deriving Inhabited

abbrev Entries := List (String × Item)

def put (key : String) (item : Item) : Entries → Entries
  | [] => [(key, item)]
  | (k, i) :: rest => if k = key then (key, item) :: rest else (k, i) :: put key item rest

def lookup (key : String) (es : Entries) : Option Item :=
  (es.find? (·.1 = key)).map (·.2)

def changeAt (viaDots : Bool) (act : Bool → Entries → Option Entries) :
    (dotted : Bool) → Entries → List String → Option Entries
  | dotted, es, [] => act dotted es
  | _, es, key :: path =>
    match lookup key es with
    | none => do
      let sub ← changeAt viaDots act viaDots [] path
      some (put key (.table true viaDots sub) es)
    | some (.value _) => none
    | some (.table implicit dotted sub) =>
      -- A dotted path enters no table that has a header of its own.
      if viaDots && ! implicit then none
      else do
        let sub ← changeAt viaDots act dotted sub path
        some (put key (.table implicit dotted sub) es)
    | some (.tables elements) =>
      match elements.getLast? with
      | some (.table implicit dotted sub) => do
        let sub ← changeAt viaDots act dotted sub path
        some (put key (.tables (elements.dropLast ++ [.table implicit dotted sub])) es)
      | _ => none

def addValue (dotted : Bool) (es : Entries) (path : List String) (v : Json) : Option Entries := do
  let key ← path.getLast?
  let above := path.dropLast
  let add (dotted : Bool) (es : Entries) : Option Entries :=
    if dotted == above.isEmpty || (lookup key es).isSome then none
    else some (put key (.value v) es)
  changeAt true add dotted es above

def openTable (es : Entries) (path : List String) : Option Entries := do
  let key ← path.getLast?
  let start (_ : Bool) (es : Entries) : Option Entries :=
    match lookup key es with
    | none => some (put key (.table false false []) es)
    | some (.table true false sub) => some (put key (.table false false sub) es)
    | _ => none
  changeAt false start false es path.dropLast

def openElement (es : Entries) (path : List String) : Option Entries := do
  let key ← path.getLast?
  let start (_ : Bool) (es : Entries) : Option Entries :=
    match lookup key es with
    | none => some (put key (.tables [.table false false []]) es)
    | some (.tables elements) =>
      some (put key (.tables (elements ++ [.table false false []])) es)
    | _ => none
  changeAt false start false es path.dropLast

mutual

def toJson : Item → Json
  | .value v => v
  | .table _ _ entries => .obj (membersOf entries)
  | .tables elements => .arr (elementsOf elements)

def membersOf : List (String × Item) → List (String × Json)
  | [] => []
  | (key, item) :: rest => (key, toJson item) :: membersOf rest

def elementsOf : List Item → List Json
  | [] => []
  | item :: rest => toJson item :: elementsOf rest

end

/-! ## Values and documents -/

def readScalar (cs : List Char) : Option (Json × List Char) :=
  match cs with
  | 't' :: 'r' :: 'u' :: 'e' :: rest => some (.bool true, rest)
  | 'f' :: 'a' :: 'l' :: 's' :: 'e' :: rest => some (.bool false, rest)
  | cs => readDateTime cs <|> readFloat cs <|> readInteger cs

mutual

def readValue : (fuel depth : Nat) → List Char → Option (Json × List Char)
  | 0, _, _ => none
  | fuel + 1, depth, cs =>
    match cs with
    | '[' :: rest => if depth ≤ 1 then none else do
      let (items, rest) ← readItems fuel (depth - 1) (skipFiller fuel rest)
      some (.arr items, rest)
    | '\x7b' :: rest => if depth ≤ 1 then none else
      match skipBlank rest with
      | '\x7d' :: rest => some (.obj [], rest)
      | rest => do
        let (es, rest) ← readPairs fuel (depth - 1) [] rest
        some (toJson (.table false false es), rest)
    | '"' :: _ | '\'' :: _ => do
      let (s, rest) ← readString fuel cs
      some (.str (String.ofList s), rest)
    | cs => readScalar cs

def readItems : (fuel depth : Nat) → List Char → Option (List Json × List Char)
  | 0, _, _ => none
  | _, _, ']' :: rest => some ([], rest)
  | fuel + 1, depth, cs => do
    let (v, rest) ← readValue fuel depth cs
    match skipFiller fuel rest with
    | ',' :: rest =>
      let (vs, rest) ← readItems fuel depth (skipFiller fuel rest)
      some (v :: vs, rest)
    | ']' :: rest => some ([v], rest)
    | _ => none

def readPairs : (fuel depth : Nat) → Entries → List Char → Option (Entries × List Char)
  | 0, _, _, _ => none
  | fuel + 1, depth, es, cs => do
    let (path, rest) ← readKey partLimit cs
    let (v, rest) ← readValue fuel depth (skipBlank (← expect '=' rest))
    let es ← addValue false es path v
    match skipBlank rest with
    | ',' :: rest => readPairs fuel depth es rest
    | '\x7d' :: rest => some (es, rest)
    | _ => none

end

structure Draft where
  root : Entries := []
  header : List String := []
  deriving Inhabited

def Draft.add (d : Draft) (path : List String) (v : Json) : Option Draft := do
  let root ← changeAt false (fun dotted es => addValue dotted es path v) false d.root d.header
  some { d with root }

def readDocument : (fuel : Nat) → Draft → List Char → Option Draft
  | 0, _, _ => none
  | fuel + 1, d, cs =>
    match skipBlank cs with
    | [] => some d
    | '#' :: rest => do readDocument fuel d (← lineEnd? (rest.dropWhile isPlain))
    | '[' :: '[' :: rest => do
      let (path, rest) ← readKey partLimit rest
      let rest ← trailing? (← expect ']' (← expect ']' rest))
      readDocument fuel { root := ← openElement d.root path, header := path } rest
    | '[' :: rest => do
      let (path, rest) ← readKey partLimit rest
      let rest ← trailing? (← expect ']' rest)
      readDocument fuel { root := ← openTable d.root path, header := path } rest
    | c :: rest =>
      match newline? (c :: rest) with
      | some rest => readDocument fuel d rest
      | none => do
        let (path, rest) ← readKey partLimit (c :: rest)
        let (v, rest) ← readValue fuel depthLimit (skipBlank (← expect '=' rest))
        readDocument fuel (← d.add path v) (← trailing? rest)

def parse? (text : String) : Option Json := do
  let cs := match text.toList with
    | '\ufeff' :: rest => rest
    | cs => cs
  let d ← readDocument (2 * cs.length + 2) {} cs
  some (toJson (.table false false d.root))

end Buildbox.Toml
