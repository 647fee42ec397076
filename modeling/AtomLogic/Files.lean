/-! Files as the program sees them: what can go wrong with one, and a tree of files in
memory that stands for the working directory. Nothing outside of the tree is there. -/

namespace AtomLogic

inductive FileFault where
  | system (reason : String) (code : Nat)
  | nulInName
  | notText
deriving DecidableEq, Inhabited, Repr

namespace FileFault

def missing : FileFault := .system "No such file or directory" 2

def notADirectory : FileFault := .system "Not a directory" 20

def isADirectory : FileFault := .system "Is a directory" 21

def nameTooLong : FileFault := .system "File name too long" 36

def message : FileFault → String
  | system reason code => s!"{reason} (os error {code})"
  | nulInName => "file name contained an unexpected NUL byte"
  | notText => "stream did not contain valid UTF-8"

/-- Whether the path leads nowhere, so that there is nothing which could be read. -/
def isNowhere : FileFault → Bool
  | system _ code => code == 2 || code == 20 || code == 36 || code == 40
  | nulInName => true
  | notText => false

end FileFault

def decodeText (bytes : ByteArray) : Except FileFault String :=
  match String.fromUTF8? bytes with
  | some text => .ok text
  | none => .error .notText

def decodeContent (content : Except FileFault ByteArray) : Except FileFault String :=
  content.bind decodeText

structure FileTree where
  files : List (List String × ByteArray)

/-- What a path leads to: a directory, by its path from the root unless it lies above that,
or a file. -/
inductive Node where
  | directory (path : Option (List String))
  | file (path : List String) (content : ByteArray)

namespace FileTree

def parts (path : String) : List String := (path.toList.splitOn '/').map String.ofList

def ofList (files : List (String × ByteArray)) : FileTree :=
  ⟨files.map fun (path,content) => ((parts path).filter (fun part => part ≠ "" ∧ part ≠ "."),content)⟩

def find? (tree : FileTree) (path : List String) : Option Node :=
  match tree.files.lookup path with
  | some content => some (.file path content)
  | none =>
    if path.isEmpty || tree.files.any (fun (other,_) => path.isPrefixOf other) then
      some (.directory (some path))
    else none

def step (tree : FileTree) (place : Node) (part : String) : Except FileFault Node :=
  match place with
  | .file _ _ => .error .notADirectory
  | .directory path =>
    if part = "" ∨ part = "." then .ok place
    else if part = ".." then
      match path with
      | some (first :: others) => .ok (.directory (some (first :: others).dropLast))
      | _ => .ok (.directory none)
    else if part.utf8ByteSize > 255 then .error .nameTooLong
    else
      match path with
      | none => .error .missing
      | some path =>
        match tree.find? (path ++ [part]) with
        | some node => .ok node
        | none => .error .missing

def checkPath (path : String) : Except FileFault Unit :=
  if path.toList.contains '\x00' then .error .nulInName
  else if path.isEmpty then .error .missing
  else if path.utf8ByteSize ≥ 4096 then .error .nameTooLong
  else .ok ()

def origin : List String → Node
  | "" :: _ :: _ => .directory none
  | _ => .directory (some [])

def resolve (tree : FileTree) (path : String) : Except FileFault Node := do
  checkPath path
  (parts path).foldlM tree.step (origin (parts path))

def read (tree : FileTree) (path : String) : Except FileFault ByteArray := do
  match ← tree.resolve path with
  | .directory _ => throw .isADirectory
  | .file _ content => pure content

def put (tree : FileTree) (path : List String) (content : ByteArray) : FileTree :=
  ⟨(path,content) :: tree.files.filter fun (other,_) => other ≠ path⟩

def withoutSlashes (parts : List String) : List String :=
  (parts.reverse.dropWhile (· = "")).reverse

def write (tree : FileTree) (path : String) (content : ByteArray) : Except FileFault FileTree := do
  checkPath path
  let named := withoutSlashes (parts path)
  match ← named.dropLast.foldlM tree.step (origin (parts path)), named.getLast? with
  | .file _ _, _ => throw .notADirectory
  | .directory _, none => throw .isADirectory
  | .directory directory, some name =>
    if name = "." ∨ name = ".." ∨ named.length < (parts path).length then throw .isADirectory
    match directory, tree.step (.directory directory) name with
    | _, .ok (.directory _) => throw .isADirectory
    | _, .ok (.file path _) => pure (tree.put path content)
    | some path, .error fault =>
      if fault = .missing then pure (tree.put (path ++ [name]) content) else throw fault
    | none, .error fault => throw fault

end FileTree
end AtomLogic
