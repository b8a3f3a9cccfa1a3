import Repertoire.Calendar
import Repertoire.Skill.Basic
import Repertoire.Text.Cut

/-!
# Summaries

Skills described for people, a line for each fact. Empty facts are replaced by words in
brackets, or left out.
-/

namespace Repertoire

namespace Summary

/-- A text, or other words when it is empty. -/
def orWords (text words : String) : String := if text.isEmpty then words else text

/-- A line. -/
def line (text : String) : String := text ++ "\n"

/-- The line of a tool. -/
def toolLine (t : Tool) : String :=
  line ("    - " ++ orWords t.name "(unnamed)" ++ " (" ++ orWords t.kind "(unknown)" ++ "): " ++
    orWords t.description "(none)")

/-- The line of an author, unless it is empty. -/
def authorLine (author : Option String) : String :=
  match author.filter fun a => !a.isEmpty with
  | some a => line ("  Author: " ++ a)
  | none => ""

/-- The line of the tags, if there are any. -/
def tagLine (tags : List String) : String :=
  if tags.isEmpty then "" else line ("  Tags: " ++ Text.joinWith ", " tags)

/-- The line of the load time of a loaded skill. -/
def loadLine (s : Skill) : String :=
  match s.loaded, s.loadTime with
  | true, some time => line ("  Load time: " ++ Calendar.text (time.fdiv 1000000000))
  | _, _ => ""

/-- The summary of a skill. -/
def ofSkill (s : Skill) : String :=
  let m := s.manifest
  line ("Skill: " ++ orWords m.name "(unnamed)") ++
    line ("  Description: " ++ orWords m.description "(none)") ++
    line ("  Version: " ++ orWords m.version "(none)") ++
    authorLine m.author ++ tagLine m.tags ++
    line ("  Tools: " ++ toString m.tools.length) ++ String.join (m.tools.map toolLine) ++
    line ("  Prompts: " ++ toString m.prompts.length) ++
    line ("  Location: " ++ m.location.getD "(unknown)") ++
    line ("  Loaded: " ++ if s.loaded then "yes" else "no") ++ loadLine s

/-- The rule above and below the title. -/
def rule : String := "============================"

/-- The summaries of skills, numbered from a number on. -/
def entries : Nat → List Skill → String
  | _, [] => ""
  | n, s :: rest => "[" ++ toString n ++ "] " ++ line (ofSkill s) ++ entries (n + 1) rest

/-- The summary of all skills of a registry. -/
def ofSkills (skills : List Skill) : String :=
  line rule ++ line ("Registered Skills (" ++ toString skills.length ++ ")") ++ line rule ++
    entries 1 skills

end Summary

end Repertoire
