import Repertoire.Skill.Basic

/-!
# Prompts

Skills described for a model. The section of a skill gives its name and description, its tools in
order, and its prompts in order with their numbers. The system prompt is a heading followed by
the sections of the loaded skills, each with a separator behind it.
-/

namespace Repertoire

/-- The block of a tool. -/
def Tool.promptBlock (t : Tool) : String := "### " ++ t.name ++ "\n" ++ t.description ++ "\n\n"

/-- The blocks of prompts, numbered from a number on. -/
def promptBlocks : Nat → List String → String
  | _, [] => ""
  | n, p :: ps => "### Prompt " ++ toString n ++ "\n\n" ++ p ++ "\n\n" ++ promptBlocks (n + 1) ps

namespace Manifest

/-- The blocks of the tools under their title. -/
def toolSection (m : Manifest) : String :=
  if m.tools.isEmpty then ""
  else "## Available Tools\n\n" ++ String.join (m.tools.map Tool.promptBlock)

/-- The blocks of the prompts under their title. -/
def promptSection (m : Manifest) : String :=
  if m.prompts.isEmpty then "" else "## Prompt Templates\n\n" ++ promptBlocks 1 m.prompts

/-- The section of a skill. -/
def prompt (m : Manifest) : String :=
  "# Skill: " ++ m.name ++ "\n\n" ++ m.description ++ "\n\n" ++ m.toolSection ++ m.promptSection

end Manifest

namespace Prompt

/-- The heading of the system prompt. -/
def heading : String := "# Available Skills\n\n"

/-- What stands behind each section. -/
def separator : String := "\n---\n\n"

/-- The part of a skill in the system prompt: none unless it is loaded. -/
def part (s : Skill) : String := if s.loaded then s.manifest.prompt ++ separator else ""

/-- The system prompt for skills. -/
def system (skills : List Skill) : String := heading ++ String.join (skills.map part)

end Prompt

end Repertoire
