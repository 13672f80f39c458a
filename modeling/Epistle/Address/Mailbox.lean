import Epistle.Header.Token

/-!
The grammar of address lists: mailboxes, with or without a display name, and named groups of them.
The reader is a machine over the characters, blanks and decoded words of a header, so that a word
can never bring in punctuation. Every address must hold an at sign.
-/

namespace Epistle

structure Mailbox where
  name : Option Text
  address : Text
  deriving DecidableEq, Repr

namespace Mailbox

/-- A mailbox whose address holds an at sign. -/
def make? (name : Option Text) (address : Text) : Option Mailbox :=
  if '@' ∈ address then some ⟨name, address⟩ else none

end Mailbox

inductive AddressEntry where
  | single (mailbox : Mailbox)
  | group (name : Text) (members : List Mailbox)
  deriving DecidableEq, Repr

namespace AddressEntry

def mailboxes : AddressEntry → List Mailbox
  | single m => [m]
  | group _ ms => ms

end AddressEntry

namespace AddressList

/-- What the machine reads. -/
inductive Item where
  | char (c : Char)
  | blank (t : Text)
  | word (t : Text)
  deriving DecidableEq, Repr

/-- Where in an entry the machine stands. `opened` is the place right behind a group's colon;
`phrase` is text with a decoded word in it, which can only be a name; and a comment stands inside
the text that it interrupts or behind an address in brackets. -/
inductive Place where
  | start
  | opened
  | quoted (name : Text)
  | escaped (name : Text)
  | afterQuoted (name : Text)
  | bracketed (name : Option Text) (address : Text)
  | afterBracketed
  | bare (text : Text)
  | phrase (text : Text)
  | comment (text : Option Text)
  deriving DecidableEq, Repr

/-- A group whose end has not been read; `gap` is that of the list around it. -/
structure OpenGroup where
  name : Text
  members : List Mailbox
  gap : Text
  deriving DecidableEq, Repr

/-- The entries read so far; the group being read, if any; the blanks read behind quoted names,
which count only if such a name goes on behind them; and the place. -/
structure Machine where
  done : List AddressEntry
  group : Option OpenGroup
  gap : Text
  place : Place
  deriving DecidableEq, Repr

namespace Machine

def init : Machine := ⟨[], none, [], .start⟩

def move (m : Machine) (place : Place) : Machine := { m with place }

/-- Adds a mailbox to the group being read or to the list. -/
def push (m : Machine) (name : Option Text) (address : Text) : Option Machine := do
  let box ← Mailbox.make? name address
  match m.group with
  | none => some { m with done := m.done ++ [.single box] }
  | some g => some { m with group := some { g with members := g.members ++ [box] } }

/-- Groups do not nest. -/
def openGroup (m : Machine) (name : Text) : Option Machine :=
  match m.group with
  | none => some { m with group := some ⟨name, [], m.gap⟩, gap := [], place := .opened }
  | some _ => none

def closeGroup? (m : Machine) : Option Machine :=
  match m.group with
  | none => none
  | some g => some ⟨m.done ++ [.group g.name g.members], none, g.gap, .start⟩

/-- A semicolon outside a group merely ends the entry. -/
def endEntry (m : Machine) : Machine := (closeGroup? m).getD (m.move .start)

def phraseChar (m : Machine) (t : Text) (c : Char) : Option Machine :=
  if c = '<' then some (m.move (.bracketed (some (Text.trimEnd t)) []))
  else if c = ':' then m.openGroup (Text.trimEnd t)
  else some (m.move (.phrase (t ++ [c])))

def bareChar (m : Machine) (t : Text) (c : Char) : Option Machine :=
  if c = '<' then some (m.move (.bracketed (some (Text.trimEnd t)) []))
  else if c = ',' then (m.push none (Text.trimEnd t)).map (·.move .start)
  else if c = ';' then (m.push none (Text.trimEnd t)).map endEntry
  else if c = ':' then m.openGroup (Text.trimEnd t)
  else if c = '(' then some (m.move (.comment (some t)))
  else some (m.move (.bare (t ++ [c])))

/-- Only quotes, an opening bracket and a semicolon mean something at the start of an entry. -/
def startChar (m : Machine) (c : Char) : Option Machine :=
  if Text.isBlank c then some (m.move .start)
  else if c = '"' then some (m.move (.quoted []))
  else if c = '<' then some (m.move (.bracketed none []))
  else if c = ';' then m.closeGroup?
  else some (m.move (.bare [c]))

def stepChar (m : Machine) (c : Char) : Option Machine :=
  match m.place with
  | .start => m.startChar c
  | .opened => m.startChar c
  | .quoted name =>
    if c = '\\' then some (m.move (.escaped name))
    else if c = '"' then some (m.move (.afterQuoted name))
    else some (m.move (.quoted (name ++ [c])))
  | .escaped name => some (m.move (.quoted (name ++ [c])))
  | .afterQuoted name =>
    if Text.isBlank c then some { m with gap := m.gap ++ [c] }
    else if c = '<' then some (m.move (.bracketed (some name) []))
    else if c = ':' then m.openGroup name
    else if c = '"' then some { m with gap := [], place := .quoted (name ++ m.gap) }
    else some { m with gap := [], place := .afterQuoted (name ++ m.gap ++ [c]) }
  | .bracketed name address =>
    if c = '>' then (m.push name address).map (·.move .afterBracketed)
    else some (m.move (.bracketed name (address ++ [c])))
  | .afterBracketed =>
    if Text.isBlank c then some m
    else if c = ',' then some (m.move .start)
    else if c = ';' then some m.endEntry
    else if c = '(' then some (m.move (.comment none))
    else none
  | .bare t => m.bareChar t c
  | .phrase t => m.phraseChar t c
  | .comment text =>
    if c = ')' then some (m.move ((text.map Place.bare).getD .afterBracketed)) else some m

def stepBlank (m : Machine) (t : Text) : Option Machine :=
  match m.place with
  | .opened => some (m.move .start)
  | .quoted name | .escaped name => some (m.move (.quoted (name ++ t)))
  | .afterQuoted _ => some { m with gap := m.gap ++ t }
  | .bracketed name address => some (m.move (.bracketed name (address ++ t)))
  | .bare text => some (m.move (.bare (text ++ t)))
  | .phrase text => some (m.move (.phrase (text ++ t)))
  | _ => some m

def stepWord (m : Machine) (t : Text) : Option Machine :=
  match m.place with
  | .start | .opened => some (m.move (.phrase t))
  | .quoted name => some (m.move (.quoted (name ++ t)))
  | .afterQuoted name => some { m with gap := [], place := .afterQuoted (name ++ m.gap ++ t) }
  | .bare text | .phrase text => some (m.move (.phrase (text ++ t)))
  | .comment _ => some m
  | _ => none

def step (m : Machine) : Item → Option Machine
  | .char c => m.stepChar c
  | .blank t => m.stepBlank t
  | .word t => m.stepWord t

/-- The list, if the input may end here. A group right behind its colon is an empty one. -/
def finish (m : Machine) : Option (List AddressEntry) :=
  match m.place, m.group with
  | .opened, some g => some (m.done ++ [.group g.name g.members])
  | .start, none | .afterBracketed, none => some m.done
  | .bare t, none => (m.push none (Text.trimEnd t)).map (·.done)
  | _, _ => none

end Machine

def ofItems? (items : List Item) : Option (List AddressEntry) :=
  (items.foldlM Machine.step Machine.init).bind Machine.finish

def Item.ofToken : Token → List Item
  | .text t => t.map char
  | .blank t => [blank t]
  | .fold => []
  | .word t => [word t]

def ofText? (t : Text) : Option (List AddressEntry) := ofItems? (t.map Item.char)

def ofField? [Charsets] (f : Field) : Option (List AddressEntry) :=
  ofItems? (f.tokens.flatMap Item.ofToken)

end AddressList
end Epistle
