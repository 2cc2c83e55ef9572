/-
Nameless/Proofs/Desk/Grouping.lean

Which lines make up a statement.

Of the lines of a source those count that have something on them when they are tidied
(`entries`).  A statement is a block of consecutive ones, joined by single spaces
(`Block.whole`), and there is one way only to divide the lines into such blocks: a block goes
on as long as its text is unfinished, and only the last may stop before (`Divides`).

`assemble` finds it.  It keeps a list of drafts, changes the newest one while a flag says that
it goes on, and reads off that flag the text it has just made.  What the list holds is the
blocks that are complete and at most one that is not, and the flag says that there is one.
`gather` keeps them apart, so the invariant is about the pending block alone
(`Block.Waits`): a line that counts is put at its end (`next_eq_whole`), and leaves it pending
or completes it, and any other line is passed over (`gather_of_tidy_eq_nil`).
`exists_divides_of_gather` is the run, by induction on the lines.

Blocks begin on different lines, so a statement never takes the place of another one when they
are queued.
-/
import Nameless.Proofs.Desk.Layout

namespace Nameless

namespace Draft

/-! ### Blocks of lines -/

/-- The lines that count, each as a draft of its own.  Lines are numbered from `number` on. -/
def entries (number : Nat) (lines : List (List Char)) : List Draft :=
  ((lines.zipIdx number).map fun p => ⟨tidy p.1, p.2⟩).filter fun x => !x.text.isEmpty

/-- Lines that belong together: the first, and those that go on with it. -/
@[ext] structure Block where
  first : Draft
  more : List Draft

namespace Block

/-- The lines of a block. -/
def lines (b : Block) : List Draft := b.first :: b.more

/-- The statement that a block makes up: its lines with a space between, under the number of the
first. -/
def whole (b : Block) : Draft := ⟨spaced b.first.text (b.more.map text), b.first.line⟩

/-- Before each line that goes on with the first, the text is unfinished. -/
def Unbroken (b : Block) : Prop := OpenCuts b.first.text (b.more.map text)

end Block

/-- The lines are divided into blocks: none is lost, repeated or moved, a block goes on only while
its text is unfinished, and all but the last go on until it is finished. -/
structure Divides (xs : List Draft) (blocks : List Block) : Prop where
  lines : blocks.flatMap Block.lines = xs
  unbroken : ∀ b ∈ blocks, b.Unbroken
  ends : ∀ b ∈ blocks.dropLast, unfinished b.whole.text = false

/-! ### There is one way to divide lines -/

theorem openCuts_append_iff {text : List Char} {pieces more : List (List Char)} :
    OpenCuts text (pieces ++ more) ↔ OpenCuts text pieces ∧ OpenCuts (spaced text pieces) more := by
  induction pieces generalizing text with
  | nil => simp [spaced, OpenCuts]
  | cons piece pieces ih =>
    rw [List.cons_append, OpenCuts, ih, ← spaced_cons, OpenCuts, and_assoc]

namespace Divides

variable {xs : List Draft} {b b' : Block} {blocks blocks' : List Block}

theorem nil : Divides [] [] :=
  ⟨rfl, List.forall_mem_nil _, List.forall_mem_nil _⟩

theorem single (hb : b.Unbroken) : Divides b.lines [b] where
  lines := List.flatMap_singleton _ _
  unbroken := List.forall_mem_singleton.mpr hb
  ends := List.forall_mem_nil _

theorem cons (hb : b.Unbroken) (hends : unfinished b.whole.text = false)
    (h : Divides xs blocks) : Divides (b.lines ++ xs) (b :: blocks) where
  lines := by rw [List.flatMap_cons, h.lines]
  unbroken := List.forall_mem_cons.mpr ⟨hb, h.unbroken⟩
  ends := by
    cases blocks with
    | nil => exact List.forall_mem_nil _
    | cons b' blocks => exact List.forall_mem_cons.mpr ⟨hends, h.ends⟩

theorem tail (h : Divides xs (b :: blocks)) : Divides (blocks.flatMap Block.lines) blocks where
  lines := rfl
  unbroken := (List.forall_mem_cons.mp h.unbroken).2
  ends := by
    cases blocks with
    | nil => exact List.forall_mem_nil _
    | cons b' blocks => exact (List.forall_mem_cons.mp h.ends).2

/-- A block that is not the last does not go on. -/
theorem not_longer (h : Divides xs (b :: blocks)) (h' : Divides xs (b' :: blocks'))
    (hfirst : b'.first = b.first) {after : List Draft} (hmore : b'.more = b.more ++ after)
    (hrest : blocks.flatMap Block.lines = after ++ blocks'.flatMap Block.lines) : after = [] := by
  cases after with
  | nil => rfl
  | cons x after =>
    have hunbroken := (List.forall_mem_cons.mp h'.unbroken).1
    rw [Block.Unbroken, hfirst, hmore, List.map_append, openCuts_append_iff] at hunbroken
    cases blocks with
    | nil => cases hrest
    | cons c blocks =>
      -- the text is unfinished where the longer block goes on, and finished where this one ends
      have hends := (List.forall_mem_cons.mp h.ends).1
      exact absurd (hunbroken.2.1.symm.trans hends) (by decide)

theorem unique (h : Divides xs blocks) (h' : Divides xs blocks') : blocks = blocks' := by
  induction blocks generalizing xs blocks' with
  | nil =>
    cases blocks' with
    | nil => rfl
    | cons b' blocks' => cases h.lines.trans h'.lines.symm
  | cons b blocks ih =>
    cases blocks' with
    | nil => cases h.lines.trans h'.lines.symm
    | cons b' blocks' =>
      obtain ⟨hfirst, happend⟩ := List.cons.inj (h.lines.trans h'.lines.symm)
      -- one of the two blocks begins the other
      have hmore : b.more = b'.more := by
        rcases List.append_eq_append_iff.mp happend with ⟨after, hmore, hrest⟩ |
          ⟨after, hmore, hrest⟩
        · rw [hmore, not_longer h h' hfirst.symm hmore hrest, List.append_nil]
        · rw [hmore, not_longer h' h hfirst hmore hrest, List.append_nil]
      have hrest : blocks.flatMap Block.lines = blocks'.flatMap Block.lines := by
        rw [hmore] at happend
        exact List.append_cancel_left happend
      exact congrArg₂ List.cons (Block.ext hfirst hmore) (ih h.tail (hrest ▸ h'.tail))

end Divides

/-! ### The pending block -/

/-- A block that goes on with the next line. -/
structure Block.Waits (b : Block) : Prop where
  unbroken : b.Unbroken
  unfinished : unfinished b.whole.text = true

/-- The block that a line goes on with or begins. -/
def grown (pending : Option Block) (x : Draft) : Block :=
  pending.elim ⟨x, []⟩ fun b => ⟨b.first, b.more ++ [x]⟩

/-- The lines of the pending block. -/
def pendingLines (pending : Option Block) : List Draft :=
  pending.elim [] Block.lines

theorem lines_grown (pending : Option Block) (x : Draft) :
    (grown pending x).lines = pendingLines pending ++ [x] := by
  cases pending <;> rfl

theorem spaced_concat (text piece : List Char) (pieces : List (List Char)) :
    spaced text (pieces ++ [piece]) = spaced text pieces ++ ' ' :: piece := by
  simp [spaced]

theorem joined_ne_nil {text line : List Char} (h : line ≠ []) : joined text line ≠ [] := by
  rcases eq_or_ne text [] with rfl | htext
  · exact h
  · exact (prefix_joined text line).ne_nil htext

section

variable {pending : Option Block} (hpending : ∀ b ∈ pending, b.Waits)
include hpending

theorem unbroken_grown (x : Draft) : (grown pending x).Unbroken := by
  cases pending with
  | none => trivial
  | some b =>
    obtain ⟨hunbroken, hopen⟩ := hpending b rfl
    show OpenCuts b.first.text ((b.more ++ [x]).map text)
    rw [List.map_append, openCuts_append_iff]
    exact ⟨hunbroken, hopen, trivial⟩

/-- A line that counts is put at the end of the pending block. -/
theorem next_eq_whole (number : Nat) {line : List Char} (h : tidy line ≠ []) :
    next (pending.map Block.whole) number line = (grown pending ⟨tidy line, number⟩).whole := by
  cases pending with
  | none =>
    show (⟨tidy line, number⟩ : Draft) = ⟨spaced (tidy line) [], number⟩
    rw [spaced, List.flatMap_nil, List.append_nil]
  | some b =>
    have hb : b.whole.text ≠ [] := ne_nil_of_unfinished (hpending b rfl).unfinished
    show (⟨joined b.whole.text (tidy line), b.first.line⟩ : Draft)
      = ⟨spaced b.first.text ((b.more ++ [(⟨tidy line, number⟩ : Draft)]).map text), b.first.line⟩
    rw [joined_eq_append hb h, List.map_append, List.map_singleton, spaced_concat]
    rfl

theorem unfinished_of_pending : ∀ d ∈ pending.map Block.whole, unfinished d.text = true := by
  intro d hd
  obtain ⟨b, hb, rfl⟩ := Option.mem_map.mp hd
  exact (hpending b hb).unfinished

end

/-! ### The run -/

theorem entries_cons_of_eq_nil {line : List Char} (h : tidy line = []) (number : Nat)
    (rest : List (List Char)) : entries number (line :: rest) = entries (number + 1) rest := by
  simp [entries, h]

theorem entries_cons_of_ne_nil {line : List Char} (h : tidy line ≠ []) (number : Nat)
    (rest : List (List Char)) :
    entries number (line :: rest) = ⟨tidy line, number⟩ :: entries (number + 1) rest := by
  simp [entries, h]

/-- The statements that are gathered are the blocks of the lines, those of the pending block
before the others. -/
theorem exists_divides_of_gather (lines : List (List Char)) :
    ∀ {pending : Option Block}, (∀ b ∈ pending, b.Waits) → ∀ number : Nat,
      ∃ blocks, Divides (pendingLines pending ++ entries number lines) blocks ∧
        gather (pending.map Block.whole) number lines = blocks.map Block.whole := by
  induction lines with
  | nil =>
    intro pending hpending number
    cases pending with
    | none => exact ⟨[], .nil, rfl⟩
    | some b =>
      refine ⟨[b], ?_, rfl⟩
      show Divides (b.lines ++ []) [b]
      rw [List.append_nil]
      exact .single (hpending b rfl).unbroken
  | cons line rest ih =>
    intro pending hpending number
    rcases eq_or_ne (tidy line) [] with hline | hline
    · rw [gather_of_tidy_eq_nil (unfinished_of_pending hpending) hline,
        entries_cons_of_eq_nil hline]
      exact ih hpending (number + 1)
    · have hnext := next_eq_whole hpending number hline
      have hgrown := unbroken_grown hpending ⟨tidy line, number⟩
      rw [entries_cons_of_ne_nil hline, List.append_cons, ← lines_grown]
      cases hopen : unfinished (next (pending.map Block.whole) number line).text with
      | true =>
        -- the block waits for the next line
        have hwaits : (grown pending ⟨tidy line, number⟩).Waits := ⟨hgrown, hnext ▸ hopen⟩
        rw [gather_of_unfinished hopen, hnext]
        exact @ih (some _) (by rintro b ⟨⟩; exact hwaits) (number + 1)
      | false =>
        -- the block is complete, and nothing is pending after it
        have hne : (next (pending.map Block.whole) number line).text ≠ [] := joined_ne_nil hline
        obtain ⟨blocks, hblocks, hgather⟩ := @ih none (by rintro b ⟨⟩) (number + 1)
        rw [gather_of_finished hopen hne, hnext]
        rw [hnext] at hopen
        exact ⟨_ :: blocks, hblocks.cons hgrown hopen, congrArg _ hgather⟩

/-- The statements of a source are the blocks of its lines. -/
theorem assemble_of_divides {lines : List (List Char)} {blocks : List Block}
    (h : Divides (entries 1 lines) blocks) : assemble lines = blocks.map Block.whole := by
  obtain ⟨blocks', hblocks', hgather⟩ := @exists_divides_of_gather lines none (by rintro b ⟨⟩) 1
  rw [assemble_eq_gather, h.unique hblocks']
  exact hgather

/-! ### The queue -/

/-- **Lines are assembled without loss.**  The lines that count can be divided into blocks in one
way, and the statements of a source are these blocks, each under the number of its first line.
The numbers increase, so if all statements can be read, opening the source queues all of them in
order, and none takes the place of another. -/
theorem assemble_divides_lines (lines : List (List Char)) :
    (∃! blocks, Divides (entries 1 lines) blocks) ∧
    (∀ blocks, Divides (entries 1 lines) blocks → assemble lines = blocks.map Block.whole) ∧
    (assemble lines).Pairwise (·.line < ·.line) ∧
    (∀ {path modeName : String} {mode : Mode} {content : List UInt8} {text : List Char},
      Mode.ofName? modeName = some mode → path ≠ promptPath → '\x00' ∉ path.toList →
      Text.decodeUtf8 content = .ok text → Text.lines text = lines →
      (∀ x ∈ assemble lines, ∃ t, Term.parse (String.ofList x.text) = .ok t) →
      ∀ (prove numerals interactive : Bool) (d : Desk), ∃ e,
        (Work.openSheet path modeName prove numerals interactive (.bytes content)).runOn d
          = some (.ok (), e) ∧
        List.Forall₂ ReadAs (assemble lines) e.sheet.queue) := by
  refine ⟨?_, fun blocks h => assemble_of_divides h, pairwise_line_assemble lines, ?_⟩
  · obtain ⟨blocks, hblocks, -⟩ := @exists_divides_of_gather lines none (by rintro b ⟨⟩) 1
    exact ⟨blocks, hblocks, fun other hother => hother.unique hblocks⟩
  · rintro path modeName mode content text hmode hpath hnul htext rfl hparse prove numerals
      interactive d
    exact Work.exists_queue_of_source hmode hpath hnul htext hparse prove numerals interactive d

/-- Lines that no term is written on, with a parenthesis in a comment and one that stays open to
the end, and a source in which a blank line stands inside a statement. -/
theorem assemble_divides_lines_interrupted :
    assemble ["0))".toList, "( ;; )".toList, [], " 1".toList]
      = [⟨"0))".toList, 1⟩, ⟨"( 1".toList, 2⟩] ∧
    ∃ e,
      (Work.openSheet "notes" "eval" false false false
          (.bytes "(λx.0 ;; (\n\n\t1)\n2".toUTF8.toList)).runOn
        (Desk.fresh ⟨true, false, .plain, .none, []⟩) = some (.ok (), e) ∧
      List.Forall₂ ReadAs [⟨"(λx.0 1)".toList, 1⟩, ⟨"2".toList, 4⟩] e.sheet.queue := by
  constructor
  · have hdivides : Divides (entries 1 ["0))".toList, "( ;; )".toList, [], " 1".toList])
        [⟨⟨"0))".toList, 1⟩, []⟩, ⟨⟨"(".toList, 2⟩, [⟨"1".toList, 4⟩]⟩] :=
      { lines := by decide +kernel
        unbroken := List.forall_mem_cons.mpr ⟨trivial,
          List.forall_mem_singleton.mpr ⟨by decide +kernel, trivial⟩⟩
        ends := List.forall_mem_singleton.mpr (by decide +kernel) }
    obtain ⟨-, hassemble, -⟩ :=
      assemble_divides_lines ["0))".toList, "( ;; )".toList, [], " 1".toList]
    exact (hassemble _ hdivides).trans (by decide +kernel)
  · have htext : Text.decodeUtf8 "(λx.0 ;; (\n\n\t1)\n2".toUTF8.toList
        = .ok "(λx.0 ;; (\n\n\t1)\n2".toList := by
      decide +kernel
    have hlines : Text.lines "(λx.0 ;; (\n\n\t1)\n2".toList
        = ["(λx.0 ;; (".toList, [], "\t1)".toList, "2".toList] := by
      decide +kernel
    have hassemble : assemble ["(λx.0 ;; (".toList, [], "\t1)".toList, "2".toList]
        = [⟨"(λx.0 1)".toList, 1⟩, ⟨"2".toList, 4⟩] := by
      decide +kernel
    have hfirst : Term.parse (String.ofList "(λx.0 1)".toList)
        = .ok (.app (.lam (.var 0)) (.var 1)) := by
      decide +kernel
    have hsecond : Term.parse (String.ofList "2".toList) = .ok (.var 2) := by decide +kernel
    have hmode : Mode.ofName? "eval" = some .eval := by decide
    have hpath : "notes" ≠ promptPath := by decide
    have hnul : '\x00' ∉ "notes".toList := by decide
    obtain ⟨-, -, -, hqueue⟩ :=
      assemble_divides_lines ["(λx.0 ;; (".toList, [], "\t1)".toList, "2".toList]
    rw [hassemble] at hqueue
    exact hqueue hmode hpath hnul htext hlines
      (List.forall_mem_cons.mpr ⟨⟨_, hfirst⟩, List.forall_mem_singleton.mpr ⟨_, hsecond⟩⟩)
      false false false _

end Draft

end Nameless
