import AtomLogic.Session
import AtomLogic.Text.Completeness

/-! Conversations: programs typed line by line. Lines are collected until every expression
is closed and then run as one entry; what is still open when the input ends is dropped. -/

namespace AtomLogic

structure Output where
  out : String := ""
  err : String := ""
deriving DecidableEq, Inhabited, Repr

instance : Append Output := ⟨fun first second => ⟨first.out ++ second.out,first.err ++ second.err⟩⟩

def Output.failure (message : String) : Output := { err := s!"Error: {message}\n" }

def Output.lines (lines : List String) : Output := { out := String.join (lines.map (· ++ "\n")) }

def tooDeepMessage : String := "evaluation nests too deeply"

structure Conversation where
  session : Session
  world : World := {}
  /-- The lines of an entry that is not complete. -/
  pending : String := ""

inductive Turn where
  | next (output : Output) (conversation : Conversation)
  | last (output : Output) (failed : Bool)

namespace Conversation

def withoutLineEnd (text : String) : String :=
  match text.toList.reverse with
  | '\n' :: '\r' :: rest => String.ofList rest.reverse
  | '\n' :: rest => String.ofList rest.reverse
  | _ => text

def enter (conversation : Conversation) (entry : String) : Turn :=
  let entry := String.ofList (Text.trimBlanks entry.toList)
  if entry.isEmpty then .next {} conversation
  else if entry = "exit" ∨ entry = "quit" then .last {} false
  else
    match conversation.session.runText entry conversation.world with
    | none => .last (.failure tooDeepMessage) true
    | some (.error e,world) => .next (.failure e.message) { conversation with world := world }
    | some (.ok lines,world) => .next (.lines lines) { conversation with world := world }

/-- Takes a line, with the mark of its end if it has one. -/
def hear (conversation : Conversation) (line : ByteArray) : Turn :=
  match decodeText line with
  | .error fault => .last (.failure fault.message) true
  | .ok line =>
    let text := conversation.pending ++ line
    let entry := withoutLineEnd text
    match Text.completeness entry with
    | .incomplete => .next {} { conversation with pending := text }
    | _ => { conversation with pending := "" }.enter entry

def hearAll (conversation : Conversation) (output : Output) : List ByteArray → Output × Bool
  | [] => (output,false)
  | line :: lines =>
    match conversation.hear line with
    | .next more conversation => conversation.hearAll (output ++ more) lines
    | .last more failed => (output ++ more,failed)

/-- Cuts bytes into lines, each with the line feed that ends it. -/
def linesOf (bytes : List UInt8) (line : List UInt8) : List ByteArray :=
  match bytes with
  | [] => if line.isEmpty then [] else [⟨line.reverse.toArray⟩]
  | b :: bytes =>
    if b = 10 then ⟨(b :: line).reverse.toArray⟩ :: linesOf bytes [] else linesOf bytes (b :: line)

end Conversation
end AtomLogic
