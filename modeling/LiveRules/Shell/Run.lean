import LiveRules.Shell.Script
import LiveRules.Shell.Tool
import LiveRules.Text.Blank

/-!
Running programs. A program is a script with a first line that names the shell, or one of a few
tools. It reads and changes the disk, writes to two outputs, and ends with a code or by a signal.
-/

namespace LiveRules.Shell

/-- Whether a word assigns to a variable, which must come before the name of a command. -/
def assignment? (arg : String) : Option (String × String) :=
  let cs := arg.toList
  let name := cs.takeWhile isNameChar
  match cs.dropWhile isNameChar with
  | '=' :: value =>
    if name.isEmpty || (name.head?.map Char.isDigit).getD false then none
    else some (.ofList name, .ofList value)
  | _ => none

/-- Opens the outputs of a command; a file that cannot be opened is an error. -/
def redirect (s : Session) (out err : Sink) : List Redirect → Option (Session × Sink × Sink)
  | [] => some (s, out, err)
  | .toOther fd other :: rest =>
    let target := if other = 2 then err else out
    if fd = 2 then redirect s out target rest else redirect s target err rest
  | .toFile fd appends w :: rest =>
    let path : Path := ⟨s.expandOne w⟩
    let (opened, d) :=
      if appends && s.disk.isFile path then (.ok (), s.disk)
      else if path.text = "/dev/null" then (.ok (), s.disk)
      else s.disk.write path ByteArray.empty
    match opened with
    | .error _ => none
    | .ok _ =>
      let s := { s with disk := d }
      if fd = 2 then redirect s out (.file path) rest else redirect s (.file path) err rest

def assign (s : Session) (pairs : List (String × String)) : Session :=
  { s with vars := pairs.reverse ++ s.vars, last := 0 }

/-- Runs commands; `fuel` bounds how deep they lie in one another and how many there are. -/
def runScript : Nat → Script → Session → Session
  | 0, _, s => s
  | _, [], s => s
  | fuel + 1, (link, command) :: rest, s =>
    if s.ended.isSome then s
    else
      let runs :=
        match link with
        | .always => true
        | .ifSucceeded => s.last == 0
        | .ifFailed => s.last != 0
      let s :=
        if !runs then s
        else
          match command with
          | .simple line words redirects =>
            match redirect s .standard .errors redirects with
            | none =>
              { s with last := 2 }.write .errors
                (complaint s line "cannot create file: Directory nonexistent")
            | some (s, out, err) =>
              let args := s.expandAll words
              let pairs := (args.map assignment?).takeWhile Option.isSome
              match pairs, args.drop pairs.length with
              | some pair :: more, [] => assign s (pair :: more.filterMap id)
              | _, name :: args => tool s line out err name args
              | _, [] => { s with last := 0 }
          | .each name words body =>
            (s.expandAll words).foldl
              (fun s value => runScript fuel body { s with vars := (name, value) :: s.vars })
              { s with last := 0 }
          | .branch test yes no =>
            let s := runScript fuel test s
            if s.ended.isSome then s
            else if s.last == 0 then runScript fuel yes s
            else runScript fuel no { s with last := 0 }
      runScript fuel rest s

/-- The number of commands and blocks that scripts may run one after the other. -/
def fuel : Nat := 10000

def finish (s : Session) : Finished :=
  ⟨s.ended.getD (.code s.last), s.out, s.err, s.disk⟩

def environment : List (String × String) := [("PATH", "/usr/bin:/bin")]

def runText (d : Disk) (name : String) (args : List String) (text : String) : Finished :=
  finish (runScript fuel (scriptOf text.toList)
    { disk := d, name, args, vars := environment })

/-- The shell itself: `-c` and a script with its name and arguments, or the path of a script. -/
def runShell (d : Disk) (args : List String) : Finished :=
  match args with
  | "-c" :: text :: rest => runText d (rest.head?.getD "sh") (rest.drop 1) text
  | path :: rest =>
    let failed (text : String) : Finished :=
      ⟨.code 2, ByteArray.empty, Text.encode ("sh: 0: " ++ text ++ "\n"), d⟩
    if "--".isPrefixOf path then failed "Illegal option --"
    else
      match d.readText ⟨path⟩ with
      | .ok text => runText d path rest text
      | .error _ => failed ("cannot open " ++ path ++ ": No such file")
  | [] => ⟨.code 0, ByteArray.empty, ByteArray.empty, d⟩

/-- The folders in which programs are looked for. -/
def searchPath : List Path := [⟨"/usr/bin"⟩, ⟨"/bin"⟩]

def isProgram (d : Disk) (p : Path) : Bool :=
  match d.look p with
  | .ok (.file _ executable) => executable
  | _ => false

/-- The program that a name means: itself if it has a folder, else the first one in the search
path. -/
def which? (d : Disk) (name : String) : Option Path :=
  if name.isEmpty then none
  else if name.toList.contains '/' then
    let p : Path := ⟨name⟩
    let p := if p.isAbsolute then p else (Path.mk ("/" ++ "/".intercalate d.current)).join p
    if isProgram d p then some p else none
  else (searchPath.map fun folder => folder.join ⟨name⟩).find? (isProgram d)

/-- The program that the first line of a script names. -/
def interpreterOf? (text : List Char) : Option String :=
  match text with
  | '#' :: '!' :: rest =>
    let line := Text.trimChars (rest.takeWhile (· ≠ '\n'))
    some (.ofList (line.takeWhile fun c => !Text.isBlank c))
  | _ => none

def interpreters : List String :=
  ["/bin/sh", "/usr/bin/sh", "/bin/bash", "/usr/bin/bash", "/bin/dash", "/usr/bin/dash",
    "/usr/bin/env"]

def isSystemFolder (place : Place) : Bool := place == ["usr", "bin"] || place == ["bin"]

/-- Runs a program with arguments. -/
def run (d : Disk) (program : Path) (args : List String) : Except OsError Finished :=
  match d.place? program with
  | .error e => .error e
  | .ok place =>
    match d.entry? place with
    | none => .error .notFound
    | some .folder => .error .accessDenied
    | some (.file _ false) => .error .accessDenied
    | some (.file content true) =>
      let text := Text.decodeLossy content
      if isSystemFolder place.dropLast then
        let name := place.getLast?.getD ""
        if name = "sh" then .ok (runShell d args)
        else
          let s : Session := { disk := d, name, args, vars := environment }
          .ok (finish (tool s 0 .standard .errors name args))
      else
        match interpreterOf? text.toList with
        | some interpreter =>
          if interpreters.contains interpreter then .ok (runText d program.text args text)
          else .error .notFound
        | none => .error .noExec

end LiveRules.Shell
