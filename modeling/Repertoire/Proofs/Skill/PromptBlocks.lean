import Mathlib.Data.List.Pairwise
import Mathlib.Data.Nat.Notation
import Repertoire.Skill.Prompt

/-!
# The section of a skill in blocks

The section of a skill is a row of blocks: its heading and its description, then a title and one
block for each tool, then a title and one block for each prompt. A title stands only over blocks.
Names and texts are put in as they are, so a text may look like a block of its own; what is said
here is about the blocks that are put together, and not about what a reader could take for one.

Each kind of block has a rank. That all tools come before all prompts is said by ranks that never
fall along the row, and that nothing is missing or repeated by what there is of each rank.
-/

namespace Repertoire

/-- A block of the section of a skill. -/
inductive PromptBlock where
  | heading (skill : String)
  | description (purpose : String)
  | toolTitle
  | tool (name purpose : String)
  | promptTitle
  | prompt (number : ℕ) (words : String)
deriving DecidableEq

namespace PromptBlock

/-- The text of a block. -/
def text : PromptBlock → String
  | .heading skill => "# Skill: " ++ skill ++ "\n\n"
  | .description purpose => purpose ++ "\n\n"
  | .toolTitle => "## Available Tools\n\n"
  | .tool name purpose => "### " ++ name ++ "\n" ++ purpose ++ "\n\n"
  | .promptTitle => "## Prompt Templates\n\n"
  | .prompt number words => "### Prompt " ++ toString number ++ "\n\n" ++ words ++ "\n\n"

/-- The rank of a block, which is that of its kind. -/
def rank : PromptBlock → ℕ
  | .heading _ => 0
  | .description _ => 1
  | .toolTitle => 2
  | .tool _ _ => 3
  | .promptTitle => 4
  | .prompt _ _ => 5

/-- The blocks of a rank. -/
def ranked (n : ℕ) (blocks : List PromptBlock) : List PromptBlock :=
  blocks.filter fun b => b.rank = n

/-- The blocks of tools. -/
def ofTools (tools : List Tool) : List PromptBlock := tools.map fun t => .tool t.name t.description

/-- The blocks of prompts, numbered from a number on. -/
def ofPrompts (first : ℕ) (prompts : List String) : List PromptBlock :=
  (prompts.zipIdx first).map fun (words, number) => .prompt number words

/-- Blocks under their title, if there are any. -/
def titled (title : PromptBlock) : List PromptBlock → List PromptBlock
  | [] => []
  | b :: rest => title :: b :: rest

end PromptBlock

open PromptBlock

/-- A row of blocks lays a manifest out: one heading and one description, then the tools in order,
then the prompts in order with their numbers. There is one title over tools and one over prompts,
exactly when there are any. -/
structure Manifest.LaidOut (m : Manifest) (blocks : List PromptBlock) : Prop where
  inOrder : blocks.Pairwise fun a b => a.rank ≤ b.rank
  heading : ranked 0 blocks = [.heading m.name]
  description : ranked 1 blocks = [.description m.description]
  toolTitle : ranked 2 blocks = if m.tools = [] then [] else [.toolTitle]
  tools : ranked 3 blocks = ofTools m.tools
  promptTitle : ranked 4 blocks = if m.prompts = [] then [] else [.promptTitle]
  prompts : ranked 5 blocks = ofPrompts 1 m.prompts

/-- The row of blocks of a manifest. -/
def Manifest.blocks (m : Manifest) : List PromptBlock :=
  [.heading m.name, .description m.description] ++ titled .toolTitle (ofTools m.tools) ++
    titled .promptTitle (ofPrompts 1 m.prompts)

namespace PromptBlock

variable {title : PromptBlock} {blocks : List PromptBlock} {n k : ℕ}

/-! ## Blocks of one kind -/

/-- The blocks of tools have their rank. -/
theorem rank_of_mem_ofTools {tools : List Tool} {b : PromptBlock} (hb : b ∈ ofTools tools) :
    b.rank = 3 := by
  obtain ⟨t, -, rfl⟩ := List.mem_map.mp hb
  rfl

/-- The blocks of prompts have their rank. -/
theorem rank_of_mem_ofPrompts {first : ℕ} {prompts : List String} {b : PromptBlock}
    (hb : b ∈ ofPrompts first prompts) : b.rank = 5 := by
  obtain ⟨t, -, rfl⟩ := List.mem_map.mp hb
  rfl

/-- Blocks of one rank are all of those of the rank. -/
theorem ranked_of_forall (hblocks : ∀ b ∈ blocks, b.rank = k) :
    ranked n blocks = if k = n then blocks else [] := by
  rw [ranked]
  split
  · rename_i hk
    exact List.filter_eq_self.mpr fun b hb => decide_eq_true ((hblocks b hb).trans hk)
  · rename_i hk
    exact List.filter_eq_nil_iff.mpr fun b hb hrank =>
      hk ((hblocks b hb).symm.trans (of_decide_eq_true hrank))

/-- A title over blocks is one more block of its rank. -/
theorem ranked_titled (title : PromptBlock) (blocks : List PromptBlock) (n : ℕ) :
    ranked n (titled title blocks) =
      (if title.rank = n ∧ blocks ≠ [] then [title] else []) ++ ranked n blocks := by
  cases blocks with
  | nil => simp [titled, ranked]
  | cons b rest =>
    by_cases h : title.rank = n <;> simp [titled, ranked, List.filter_cons, h]

/-- A title and blocks of one rank that is not lower are in order. -/
theorem pairwise_titled (htitle : title.rank ≤ k) (hblocks : ∀ b ∈ blocks, b.rank = k) :
    (titled title blocks).Pairwise fun a b => a.rank ≤ b.rank := by
  cases blocks with
  | nil => exact List.Pairwise.nil
  | cons b rest =>
    refine List.pairwise_cons.mpr ⟨fun c hc => (hblocks c hc).symm ▸ htitle, ?_⟩
    exact List.pairwise_of_forall_mem_list fun a ha c hc =>
      Nat.le_of_eq ((hblocks a ha).trans (hblocks c hc).symm)

/-- The ranks of a title and the blocks under it lie between its own and theirs. -/
theorem rank_of_mem_titled {b : PromptBlock} (htitle : title.rank ≤ k)
    (hblocks : ∀ b ∈ blocks, b.rank = k) (hb : b ∈ titled title blocks) :
    title.rank ≤ b.rank ∧ b.rank ≤ k := by
  cases blocks with
  | nil => exact absurd hb List.not_mem_nil
  | cons c rest =>
    rcases List.mem_cons.mp hb with rfl | hb
    · exact ⟨Nat.le_refl _, htitle⟩
    · exact ⟨(hblocks b hb).symm ▸ htitle, Nat.le_of_eq (hblocks b hb)⟩

/-- The text of blocks under a title. -/
theorem join_titled (title : PromptBlock) (blocks : List PromptBlock) :
    String.join ((titled title blocks).map text) =
      if blocks = [] then "" else title.text ++ String.join (blocks.map text) := by
  cases blocks <;> simp [titled]

/-- The numbered blocks of prompts, one after the other. -/
theorem promptBlocks_eq (first : ℕ) (prompts : List String) :
    promptBlocks first prompts = String.join ((ofPrompts first prompts).map text) := by
  induction prompts generalizing first with
  | nil => rfl
  | cons p rest ih => simp [promptBlocks, ih, ofPrompts, text]

end PromptBlock

namespace Manifest

/-! ## The row of blocks -/

/-- The section of a skill is the text of its blocks. -/
theorem prompt_eq_blocks (m : Manifest) : m.prompt = String.join (m.blocks.map text) := by
  have htools : m.toolSection = String.join ((titled .toolTitle (ofTools m.tools)).map text) := by
    have hblock : Tool.promptBlock = text ∘ fun t : Tool => .tool t.name t.description := rfl
    rw [join_titled, toolSection, hblock]
    cases m.tools <;> simp [ofTools, text]
  have hprompts :
      m.promptSection = String.join ((titled .promptTitle (ofPrompts 1 m.prompts)).map text) := by
    rw [join_titled, promptSection, promptBlocks_eq]
    cases m.prompts <;> simp [ofPrompts, text]
  rw [blocks, List.map_append, List.map_append, String.join_append, String.join_append, ← htools,
    ← hprompts]
  simp [Manifest.prompt, text, String.append_assoc]

/-- What a row of blocks has of a rank. -/
theorem ranked_blocks (m : Manifest) (n : ℕ) :
    ranked n m.blocks = ranked n [.heading m.name, .description m.description] ++
      ((if 2 = n ∧ m.tools ≠ [] then [.toolTitle] else []) ++
        if 3 = n then ofTools m.tools else []) ++
      ((if 4 = n ∧ m.prompts ≠ [] then [.promptTitle] else []) ++
        if 5 = n then ofPrompts 1 m.prompts else []) := by
  have hsplit (a b : List PromptBlock) : ranked n (a ++ b) = ranked n a ++ ranked n b :=
    List.filter_append a b
  have htools : ofTools m.tools ≠ [] ↔ m.tools ≠ [] := by simp [ofTools]
  have hprompts : ofPrompts 1 m.prompts ≠ [] ↔ m.prompts ≠ [] := by simp [ofPrompts]
  rw [blocks, hsplit, hsplit, ranked_titled, ranked_titled,
    ranked_of_forall fun _ => rank_of_mem_ofTools, ranked_of_forall fun _ => rank_of_mem_ofPrompts]
  simp only [rank, htools, hprompts]

/-- Along the row of blocks of a manifest the ranks never fall. -/
theorem pairwise_blocks (m : Manifest) : m.blocks.Pairwise fun a b => a.rank ≤ b.rank := by
  have htitles : toolTitle.rank ≤ 3 ∧ promptTitle.rank ≤ 5 := by simp [rank]
  have hfront : ∀ b ∈ [PromptBlock.heading m.name, .description m.description], b.rank < 2 := by
    simp [rank]
  have htools : ∀ b ∈ titled .toolTitle (ofTools m.tools), 2 ≤ b.rank ∧ b.rank ≤ 3 := fun b =>
    rank_of_mem_titled htitles.1 fun _ => rank_of_mem_ofTools
  have hprompts : ∀ b ∈ titled .promptTitle (ofPrompts 1 m.prompts), 4 ≤ b.rank ∧ b.rank ≤ 5 :=
    fun b => rank_of_mem_titled htitles.2 fun _ => rank_of_mem_ofPrompts
  rw [blocks, List.pairwise_append, List.pairwise_append]
  refine ⟨⟨by simp [rank], pairwise_titled htitles.1 fun _ => rank_of_mem_ofTools,
    fun a ha b hb => ?_⟩, pairwise_titled htitles.2 fun _ => rank_of_mem_ofPrompts,
    fun a ha b hb => ?_⟩
  · exact Nat.le_of_lt (Nat.lt_of_lt_of_le (hfront a ha) (htools b hb).1)
  · have hlow := (hprompts b hb).1
    rcases List.mem_append.mp ha with ha | ha
    · have hhigh := hfront a ha
      omega
    · have hhigh := (htools a ha).2
      omega

/-- The row of blocks of a manifest lays it out. -/
theorem laidOut_blocks (m : Manifest) : m.LaidOut m.blocks where
  inOrder := m.pairwise_blocks
  heading := by rw [ranked_blocks]; simp [ranked, rank]
  description := by rw [ranked_blocks]; simp [ranked, rank]
  toolTitle := by rw [ranked_blocks]; simp [ranked, rank]
  tools := by rw [ranked_blocks]; simp [ranked, rank]
  promptTitle := by rw [ranked_blocks]; simp [ranked, rank]
  prompts := by rw [ranked_blocks]; simp [ranked, rank]

end Manifest

end Repertoire
