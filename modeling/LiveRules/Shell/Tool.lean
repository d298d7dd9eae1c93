import LiveRules.Shell.Format
import LiveRules.Shell.Session
import LiveRules.Text.Blank

/-!
The tools that scripts call.
-/

namespace LiveRules.Shell

open Text (Bytes)

def signalOf? (word : String) : Option Nat :=
  match word.toNat? with
  | some n => some n
  | none => (signalNames.find? fun x => x.2 == "SIG" ++ word || x.2 == word).map (·.1)

def killSignal (args : List String) : Nat :=
  match args with
  | "-s" :: name :: _ => (signalOf? name).getD 15
  | first :: _ =>
    match first.toList with
    | '-' :: name => (signalOf? (.ofList name)).getD 15
    | _ => 15
  | [] => 15

def holdsTest (d : Disk) : List String → Bool
  | ["-f", p] => d.isFile ⟨p⟩
  | ["-d", p] => d.isFolder ⟨p⟩
  | ["-e", p] => d.isThere ⟨p⟩
  | ["-n", s] => !s.isEmpty
  | ["-z", s] => s.isEmpty
  | [s] => !s.isEmpty
  | [a, "=", b] => a == b
  | [a, "!=", b] => a != b
  | [a, "-eq", b] => a.toInt? == b.toInt?
  | [a, "-gt", b] => decide ((b.toInt?.getD 0) < (a.toInt?.getD 0))
  | "!" :: rest =>
    match rest with
    | ["-f", p] => !d.isFile ⟨p⟩
    | ["-d", p] => !d.isFolder ⟨p⟩
    | ["-e", p] => !d.isThere ⟨p⟩
    | _ => false
  | _ => false

def complaint (s : Session) (line : Nat) (text : String) : Bytes :=
  Text.encode (s.name ++ ": " ++ toString line ++ ": " ++ text ++ "\n")

/-- The message of an error without its number. -/
def reason (e : OsError) : String :=
  .ofList (Text.trimChars (e.message.toList.takeWhile (· ≠ '(')))

/-- A tool that works on each of its paths. -/
def overPaths (act : Disk → Path → Except OsError Unit × Disk) (tool message : String)
    (s : Session) (err : Sink) : List String → Session
  | [] => s
  | p :: rest =>
    match act s.disk ⟨p⟩ with
    | (.ok _, d) => overPaths act tool message { s with disk := d } err rest
    | (.error e, d) =>
      let text := tool ++ ": " ++ message ++ " '" ++ p ++ "': " ++
        reason e ++ "\n"
      overPaths act tool message
        ({ s with disk := d, last := 1 }.write err (Text.encode text)) err rest

def catFiles (s : Session) (out err : Sink) : List String → Session
  | [] => s
  | p :: rest =>
    match s.disk.read ⟨p⟩ with
    | .ok content => catFiles (s.write out content) out err rest
    | .error _ =>
      catFiles ({ s with last := 1 }.write err
        (Text.encode ("cat: " ++ p ++ ": No such file or directory\n"))) out err rest

/-- Runs a tool with its arguments. -/
def tool (s : Session) (line : Nat) (out err : Sink) (name : String) (args : List String) :
    Session :=
  let ok := { s with last := 0 }
  match name with
  | "true" | ":" => ok
  | "false" => { s with last := 1 }
  | "exit" =>
    { s with ended := some (.code (((args.head?.bind String.toNat?).getD s.last) % 256)) }
  | "echo" =>
    match args with
    | "-n" :: rest =>
      let text := " ".intercalate rest
      ok.write out (unescaped (text.length + 1) text.toList)
    | args =>
      let text := " ".intercalate args
      ok.write out (unescaped (text.length + 1) text.toList ++ byte 10)
  | "printf" =>
    match args with
    | template :: rest => ok.write out (format (rest.length + 1) template.toList rest)
    | [] => { s with last := 2 }
  | "kill" => { s with ended := some (.signal (killSignal args)) }
  | "shift" => { ok with args := s.args.drop ((args.head?.bind String.toNat?).getD 1) }
  | "mkdir" =>
    match args with
    | "-p" :: rest => overPaths Disk.makeFolders "mkdir" "cannot create directory" ok err rest
    | rest => overPaths Disk.makeFolder "mkdir" "cannot create directory" ok err rest
  | "rm" =>
    match args with
    | "-f" :: rest => { overPaths Disk.removeFile "rm" "cannot remove" ok err rest with last := 0 }
    | "-rf" :: rest => { ok with disk := rest.foldl (fun d p => (d.removeTree ⟨p⟩).2) s.disk }
    | rest => overPaths Disk.removeFile "rm" "cannot remove" ok err rest
  | "touch" =>
    overPaths (fun d p => if d.isThere p then (.ok (), d) else d.write p ByteArray.empty)
      "touch" "cannot touch" ok err args
  | "cat" => catFiles ok out err args
  | "pwd" => ok.write out (Text.encode ("/" ++ "/".intercalate s.disk.current ++ "\n"))
  | "test" => { s with last := if holdsTest s.disk args then 0 else 1 }
  | "[" => { s with last := if holdsTest s.disk args.dropLast then 0 else 1 }
  | name => { s with last := 127 }.write err (complaint s line (name ++ ": not found"))

end LiveRules.Shell
