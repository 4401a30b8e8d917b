/-!
The characters of TOML, and its strings. A reader answers with what it read and with the text that
is left.
-/
namespace Linkage.Toml

def isBlank (c : Char) : Bool := c == ' ' || c == '\t'

def skipBlanks (cs : List Char) : List Char := cs.dropWhile isBlank

/-- A character that may stand in a comment or, unless it ends or escapes something there, in a
string: anything but the control characters, of which the tab is allowed. -/
def isPlain (c : Char) : Bool := c == '\t' || (c.toNat ≥ 32 && c.toNat ≠ 127)

def isBareKey (c : Char) : Bool := c.isAlphanum || c == '_' || c == '-'

def newline? : List Char → Option (List Char)
  | '\n' :: rest => some rest
  | '\r' :: '\n' :: rest => some rest
  | _ => none

theorem length_newline? {cs rest : List Char} (h : newline? cs = some rest) :
    rest.length < cs.length := by
  unfold newline? at h
  split at h
  · cases h; simp only [List.length_cons]; omega
  · cases h; simp only [List.length_cons]; omega
  · cases h

def skipComment : List Char → List Char
  | '#' :: rest => rest.dropWhile isPlain
  | cs => cs

theorem length_skipComment_le (cs : List Char) : (skipComment cs).length ≤ cs.length := by
  unfold skipComment
  split
  · have := (List.dropWhile_sublist isPlain (l := ‹List Char›)).length_le
    simp only [List.length_cons]; omega
  · exact Nat.le_refl _

def lineFeed? (cs : List Char) : Option (List Char) := newline? (skipComment (skipBlanks cs))

theorem length_lineFeed? {cs rest : List Char} (h : lineFeed? cs = some rest) :
    rest.length < cs.length := by
  have := length_newline? h
  have := length_skipComment_le (skipBlanks cs)
  have : (skipBlanks cs).length ≤ cs.length :=
    (List.dropWhile_sublist isBlank (l := cs)).length_le
  omega

def endLine? (cs : List Char) : Option (List Char) :=
  if (skipComment (skipBlanks cs)).isEmpty then some [] else lineFeed? cs

def skipSpace (cs : List Char) : List Char :=
  match _h : lineFeed? cs with
  | some rest => skipSpace rest
  | none => skipBlanks cs
termination_by cs.length
decreasing_by exact length_lineFeed? ‹_›

def hexValue? (c : Char) : Option Nat :=
  if '0' ≤ c ∧ c ≤ '9' then some (c.toNat - 48)
  else if 'a' ≤ c ∧ c ≤ 'f' then some (c.toNat - 87)
  else if 'A' ≤ c ∧ c ≤ 'F' then some (c.toNat - 55)
  else none

/-- The character whose number some hexadecimal digits write. Half of a surrogate pair is none. -/
def scalar? (digits : List Char) : Option Char := do
  let n ← digits.foldlM (fun n c => do return n * 16 + (← hexValue? c)) 0
  if n < 0xD800 || (0xE000 ≤ n && n < 0x110000) then return Char.ofNat n else none

def unescape? (c : Char) : Option Char :=
  match c with
  | 'b' => some '\x08'
  | 't' => some '\t'
  | 'n' => some '\n'
  | 'f' => some '\x0c'
  | 'r' => some '\r'
  | '"' => some '"'
  | '\\' => some '\\'
  | _ => none

def readEscape : List Char → Option (Char × List Char)
  | 'u' :: a :: b :: c :: d :: rest => (scalar? [a, b, c, d]).map (·, rest)
  | 'U' :: a :: b :: c :: d :: e :: f :: g :: h :: rest =>
    (scalar? [a, b, c, d, e, f, g, h]).map (·, rest)
  | c :: rest => (unescape? c).map (·, rest)
  | [] => none

theorem length_readEscape {cs rest : List Char} {c : Char} (h : readEscape cs = some (c, rest)) :
    rest.length < cs.length := by
  unfold readEscape at h
  split at h
  · simp only [Option.map_eq_some_iff] at h
    obtain ⟨_, _, h⟩ := h
    cases h; simp only [List.length_cons]; omega
  · simp only [Option.map_eq_some_iff] at h
    obtain ⟨_, _, h⟩ := h
    cases h; simp only [List.length_cons]; omega
  · simp only [Option.map_eq_some_iff] at h
    obtain ⟨_, _, h⟩ := h
    cases h; simp only [List.length_cons]; omega
  · cases h

def readBasic (cs : List Char) : Option (List Char × List Char) :=
  match cs with
  | [] => none
  | '"' :: rest => some ([], rest)
  | '\\' :: rest =>
    match _h : readEscape rest with
    | none => none
    | some (c, rest) => (readBasic rest).map fun (cs, rest) => (c :: cs, rest)
  | c :: rest =>
    if isPlain c then (readBasic rest).map fun (cs, rest) => (c :: cs, rest) else none
termination_by cs.length
decreasing_by
  · have := length_readEscape ‹_›
    simp only [List.length_cons]; omega
  · simp only [List.length_cons]; omega

def readLiteral : List Char → Option (List Char × List Char)
  | [] => none
  | '\'' :: rest => some ([], rest)
  | c :: rest =>
    if isPlain c then (readLiteral rest).map fun (cs, rest) => (c :: cs, rest) else none

def skipLineEnds : List Char → List Char
  | '\r' :: '\n' :: rest => skipLineEnds rest
  | c :: rest => if isBlank c || c == '\n' then skipLineEnds rest else c :: rest
  | [] => []

theorem length_skipLineEnds_le (cs : List Char) : (skipLineEnds cs).length ≤ cs.length := by
  fun_induction skipLineEnds cs with
  | case1 rest ih => simp only [List.length_cons]; omega
  | case2 c rest _ _ ih => simp only [List.length_cons]; omega
  | case3 c rest _ _ => exact Nat.le_refl _
  | case4 => exact Nat.le_refl _

def joinLines? (cs : List Char) : Option (List Char) :=
  (newline? (skipBlanks cs)).map skipLineEnds

theorem length_joinLines? {cs rest : List Char} (h : joinLines? cs = some rest) :
    rest.length < cs.length := by
  simp only [joinLines?, Option.map_eq_some_iff] at h
  obtain ⟨found, hn, rfl⟩ := h
  have := length_newline? hn
  have := (List.dropWhile_sublist isBlank (l := cs)).length_le
  have := length_skipLineEnds_le found
  simp only [skipBlanks] at *
  omega

/-- Reads a string of several lines up to its closing quotes, before which one or two more quotes
may stand. Every line end is read as a line feed. -/
def readBasicLines (cs : List Char) : Option (List Char × List Char) :=
  match cs with
  | [] => none
  | '"' :: '"' :: '"' :: '"' :: '"' :: rest => some (['"', '"'], rest)
  | '"' :: '"' :: '"' :: '"' :: rest => some (['"'], rest)
  | '"' :: '"' :: '"' :: rest => some ([], rest)
  | '\r' :: '\n' :: rest => (readBasicLines rest).map fun (cs, rest) => ('\n' :: cs, rest)
  | '\\' :: rest =>
    match _h : joinLines? rest with
    | some rest => readBasicLines rest
    | none =>
      match _h : readEscape rest with
      | none => none
      | some (c, rest) => (readBasicLines rest).map fun (cs, rest) => (c :: cs, rest)
  | c :: rest =>
    if isPlain c || c == '\n' then
      (readBasicLines rest).map fun (cs, rest) => (c :: cs, rest)
    else none
termination_by cs.length
decreasing_by
  · simp only [List.length_cons]; omega
  · have := length_joinLines? ‹_›
    simp only [List.length_cons]; omega
  · have := length_readEscape ‹_›
    simp only [List.length_cons]; omega
  · simp only [List.length_cons]; omega

def readLiteralLines : List Char → Option (List Char × List Char)
  | [] => none
  | '\'' :: '\'' :: '\'' :: '\'' :: '\'' :: rest => some (['\'', '\''], rest)
  | '\'' :: '\'' :: '\'' :: '\'' :: rest => some (['\''], rest)
  | '\'' :: '\'' :: '\'' :: rest => some ([], rest)
  | '\r' :: '\n' :: rest => (readLiteralLines rest).map fun (cs, rest) => ('\n' :: cs, rest)
  | c :: rest =>
    if isPlain c || c == '\n' then
      (readLiteralLines rest).map fun (cs, rest) => (c :: cs, rest)
    else none

def skipFirstNewline (cs : List Char) : List Char := (newline? cs).getD cs

def readString (cs : List Char) : Option (String × List Char) :=
  let body := match cs with
    | '"' :: '"' :: '"' :: rest => readBasicLines (skipFirstNewline rest)
    | '"' :: rest => readBasic rest
    | '\'' :: '\'' :: '\'' :: rest => readLiteralLines (skipFirstNewline rest)
    | '\'' :: rest => readLiteral rest
    | _ => none
  body.map fun (cs, rest) => (String.ofList cs, rest)

end Linkage.Toml
