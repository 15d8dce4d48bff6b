import Mathlib
import Regalloc.Proofs.PhraseReading
import Regalloc.Proofs.PrintPhrases

/-!
# Reading printed programs

A text is read as a program if and only if its tokens are the program's, as the grammar says. The
text of a program that was read has the same tokens again, so it is read as the same program.
Offsets of stack slots are the one exception: they are kept modulo the size of all slots.
-/

namespace Regalloc.Source

open Phrase

variable {text : String} {p : Program}

theorem parseProgram_eq_ok_iff :
    parseProgram text = .ok p ↔
      ∃ tokens, scan text = .ok tokens ∧ ProgramPhrase (tokens.map Token.kind) p := by
  constructor
  · intro parsed
    obtain ⟨tokens, scanned, parsed⟩ := except_bind_eq_ok.mp parsed
    obtain ⟨⟨_, after⟩, read, same⟩ := except_bind_eq_ok.mp parsed
    cases same
    exact ⟨tokens, scanned, layout_of_program read⟩
  · rintro ⟨tokens, scanned, phrase⟩
    obtain ⟨after, read⟩ := @ProgramPhrase.reads p { rest := tokens } phrase
    rw [parseProgram, Source.read, scanned]
    change (program { rest := tokens } >>= _) = _
    rw [read]
    rfl

theorem exists_scan_render (parsed : parseProgram text = .ok p) :
    ∃ tokens printed, scan text = .ok tokens ∧ scan p.render = .ok printed ∧
      ProgramPhrase (printed.map Token.kind) p ∧
      Narrows (visible (tokens.map Token.kind)) (visible (printed.map Token.kind))
        (p.functions.flatMap Function.slots) := by
  obtain ⟨tokens, scanned, phrase⟩ := parseProgram_eq_ok_iff.mp parsed
  obtain ⟨others, phrase', clean, writes, narrows⟩ := phrase.prints (clean_scan scanned)
  refine ⟨tokens, numbered 1 others, scanned, scan_of_writes writes clean.chain, ?_⟩
  rw [kinds_numbered]
  exact ⟨phrase', narrows⟩

/-- The text of a program that was read is read as the program itself, its variables numbered as
before. -/
theorem parseProgram_render (parsed : parseProgram text = .ok p) :
    parseProgram p.render = .ok p := by
  obtain ⟨_, printed, -, scanned, phrase, -⟩ := exists_scan_render parsed
  exact parseProgram_eq_ok_iff.mpr ⟨printed, scanned, phrase⟩

/-- A comment, a minus sign before a negative number, a word with a hyphen, and both limits of the
numbers. -/
theorem parseProgram_render_minus_signs :
    ∃ text p, text = "define void @f() \x7b :e // entry\n%a<-%b--9223372036854775808\n\n" ++
        "call tensor-error(09223372036854775807)\nreturn\x7d" ∧
      parseProgram text = .ok p ∧
      p.render = "define void @f() \x7b\n  :e\n  %a <- %b - -9223372036854775808\n" ++
        "  call tensor-error(9223372036854775807)\n  return\n\x7d\n" ∧
      parseProgram p.render = .ok p := by
  obtain ⟨text, spelled⟩ : ∃ text, text =
    "define void @f() \x7b :e // entry\n%a<-%b--9223372036854775808\n\n" ++
      "call tensor-error(09223372036854775807)\nreturn\x7d" := ⟨_, rfl⟩
  have read : (parseProgram text).toOption.map Program.render =
      some ("define void @f() \x7b\n  :e\n  %a <- %b - -9223372036854775808\n" ++
        "  call tensor-error(9223372036854775807)\n  return\n\x7d\n") := by
    subst spelled
    decide +kernel
  simp only [Option.map_eq_some_iff, toOption_eq_some] at read
  obtain ⟨p, parsed, printed⟩ := read
  exact ⟨text, p, spelled, parsed, printed, parseProgram_render parsed⟩

def visibleTokens (text : String) : Except ParseError (List TokenKind) :=
  (scan text).map fun tokens => visible (tokens.map Token.kind)

def offsetBound : Int := 8 * slotBound

/-- What is kept of the offset of a slot. -/
def narrowOffset (n : Int64) : Int64 :=
  .ofInt (n.toInt % offsetBound)

def narrowed : List TokenKind → List TokenKind
  | .word "mem" :: .word "rsp" :: .number n :: kinds =>
    .word "mem" :: .word "rsp" :: .number (narrowOffset n) :: narrowed kinds
  | kind :: kinds => kind :: narrowed kinds
  | [] => []

def slotOffsets : List TokenKind → List Int64
  | .word "mem" :: .word "rsp" :: .number n :: kinds => n :: slotOffsets kinds
  | _ :: kinds => slotOffsets kinds
  | [] => []

theorem offset_eq {n : Int64} {s : Slot} (found : slotAt? n = some s) :
    (s.offset : Int) = n.toInt % offsetBound := by
  obtain ⟨positive, aligned, index⟩ := slotAt?_eq_some found
  rw [Slot.offset, index]
  simp only [offsetBound, slotBound]
  omega

theorem narrowOffset_eq {n : Int64} {s : Slot} (found : slotAt? n = some s) :
    narrowOffset n = .ofNat s.offset := by
  rw [narrowOffset, ← offset_eq found]
  rfl

theorem narrowOffset_eq_self_iff {n : Int64} (positive : 0 ≤ n.toInt) :
    narrowOffset n = n ↔ n.toInt < offsetBound := by
  have small : 0 ≤ n.toInt % offsetBound ∧ n.toInt % offsetBound < offsetBound :=
    ⟨Int.emod_nonneg _ (by decide), Int.emod_lt_of_pos _ (by decide)⟩
  rw [← Int64.toInt_inj, narrowOffset, Int64.toInt_ofInt_of_le]
  · exact ⟨fun same => same ▸ small.2, Int.emod_eq_of_lt positive⟩
  all_goals
    simp only [offsetBound, slotBound] at small ⊢
    omega

namespace Narrows

variable {kinds others : List TokenKind} {slots : List Slot}

theorem narrowed_eq (narrows : Narrows kinds others slots) : narrowed kinds = others := by
  induction narrows with
  | nil => rfl
  | keep visible other narrows ih => simp [narrowed, other, ih]
  | slot found narrows ih => rw [narrowed, narrowOffset_eq found, ih]

theorem offsets_eq (narrows : Narrows kinds others slots) :
    slots.map (fun slot => (slot.offset : Int)) =
      (slotOffsets kinds).map fun n => n.toInt % offsetBound := by
  induction narrows with
  | nil => rfl
  | keep visible other narrows ih => simp [slotOffsets, other, ih]
  | slot found narrows ih =>
      rw [slotOffsets, List.map_cons, List.map_cons, offset_eq found, ih]

theorem narrowed_eq_self_iff (narrows : Narrows kinds others slots) :
    narrowed kinds = kinds ↔ ∀ n ∈ slotOffsets kinds, n.toInt < offsetBound := by
  induction narrows with
  | nil => simp [narrowed, slotOffsets]
  | keep visible other narrows ih => simp [narrowed, slotOffsets, other, ih]
  | slot found narrows ih =>
      rw [slotOffsets, List.forall_mem_cons, ← ih,
        ← narrowOffset_eq_self_iff (slotAt?_eq_some found).1]
      simp [narrowed]

end Narrows

theorem exists_visibleTokens (parsed : parseProgram text = .ok p) :
    ∃ kinds, visibleTokens text = .ok kinds ∧ visibleTokens p.render = .ok (narrowed kinds) ∧
      Narrows kinds (narrowed kinds) (p.functions.flatMap Function.slots) := by
  obtain ⟨tokens, printed, scanned, scanned', -, narrows⟩ := exists_scan_render parsed
  refine ⟨visible (tokens.map Token.kind), ?_, ?_, ?_⟩
  · rw [visibleTokens, scanned]
    rfl
  · rw [visibleTokens, scanned', narrows.narrowed_eq]
    rfl
  · rw [narrows.narrowed_eq]
    exact narrows

/-- Nothing of a text is lost in reading it but line ends and the high part of offsets. The text of
the program has the same tokens with narrowed offsets, they are the offsets of the program's slots,
and so any two texts of one program agree. -/
theorem visibleTokens_render (parsed : parseProgram text = .ok p) :
    ∃ kinds, visibleTokens text = .ok kinds ∧ visibleTokens p.render = .ok (narrowed kinds) ∧
      (narrowed kinds = kinds ↔ ∀ n ∈ slotOffsets kinds, n.toInt < offsetBound) ∧
      (p.functions.flatMap Function.slots).map (fun slot => (slot.offset : Int)) =
        (slotOffsets kinds).map (fun n => n.toInt % offsetBound) ∧
      ∀ other, parseProgram other = .ok p →
        ∃ others, visibleTokens other = .ok others ∧ narrowed others = narrowed kinds := by
  obtain ⟨kinds, scanned, printed, narrows⟩ := exists_visibleTokens parsed
  refine ⟨kinds, scanned, printed, narrows.narrowed_eq_self_iff, narrows.offsets_eq, ?_⟩
  intro other parsed'
  obtain ⟨others, scanned', printed', -⟩ := exists_visibleTokens parsed'
  rw [printed, Except.ok.injEq] at printed'
  exact ⟨others, scanned', printed'.symm⟩

/-- Two texts of one program: the source and the target of the assignment are one slot. -/
theorem visibleTokens_render_same_slot :
    ∃ far near p kinds others,
      far = "define void @f() \x7b\n:e\nmem rsp 8 <- mem rsp 34359738376\nreturn\n\x7d" ∧
      near = "define void @f() \x7b :e // entry\nmem rsp 08<-mem rsp 8\nreturn\x7d" ∧
      parseProgram far = .ok p ∧ parseProgram near = .ok p ∧
      visibleTokens far = .ok kinds ∧ visibleTokens near = .ok others ∧
      slotOffsets kinds = [8, 34359738376] ∧ narrowed kinds ≠ kinds ∧
      narrowed others = narrowed kinds ∧ visibleTokens p.render = .ok (narrowed kinds) ∧
      (p.functions.flatMap Function.slots).map (fun slot => (slot.offset : Int)) = [8, 8] := by
  obtain ⟨far, farText⟩ : ∃ far, far =
    "define void @f() \x7b\n:e\nmem rsp 8 <- mem rsp 34359738376\nreturn\n\x7d" := ⟨_, rfl⟩
  obtain ⟨near, nearText⟩ : ∃ near, near =
    "define void @f() \x7b :e // entry\nmem rsp 08<-mem rsp 8\nreturn\x7d" := ⟨_, rfl⟩
  have read : (parseProgram far).toOption.map (fun p => decide (parseProgram near = .ok p)) =
      some true := by
    subst farText nearText
    decide +kernel
  have written : (visibleTokens far).toOption.map slotOffsets = some [8, 34359738376] := by
    subst farText
    decide +kernel
  simp only [Option.map_eq_some_iff, toOption_eq_some, decide_eq_true_eq] at read written
  obtain ⟨p, parsed, parsed'⟩ := read
  obtain ⟨kinds, scanned, offsets⟩ := written
  obtain ⟨_, again, printed, kept, slots, agree⟩ := visibleTokens_render parsed
  rw [scanned, Except.ok.injEq] at again
  subst again
  obtain ⟨others, scanned', same⟩ := agree near parsed'
  refine ⟨far, near, p, kinds, others, farText, nearText, parsed, parsed', scanned, scanned', offsets,
    ?_, same, printed, ?_⟩
  · rw [ne_eq, kept, offsets]
    intro small
    exact absurd (small 34359738376 (by simp)) (by decide)
  · rw [slots, offsets]
    rfl

/-- An offset of 2 ^ 35 is read as the slot at offset 0, and so it is printed. -/
theorem visibleTokens_render_ne :
    ∃ text p, text = "define int64 @f() \x7b\n:e\n%a <- mem rsp 34359738368\nreturn %a\n\x7d" ∧
      parseProgram text = .ok p ∧ p.functions.flatMap Function.slots = [⟨0⟩] ∧
      visibleTokens p.render ≠ visibleTokens text := by
  obtain ⟨text, spelled⟩ : ∃ text, text =
    "define int64 @f() \x7b\n:e\n%a <- mem rsp 34359738368\nreturn %a\n\x7d" := ⟨_, rfl⟩
  have read : (parseProgram text).toOption.map (fun p =>
      (p.functions.flatMap Function.slots, decide (visibleTokens p.render = visibleTokens text))) =
      some ([⟨0⟩], false) := by
    subst spelled
    decide +kernel
  simp only [Option.map_eq_some_iff, toOption_eq_some, Prod.mk.injEq, decide_eq_false_iff_not] at read
  obtain ⟨p, parsed, slots, other⟩ := read
  exact ⟨text, p, spelled, parsed, slots, other⟩

end Regalloc.Source
