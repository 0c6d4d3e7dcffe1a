import Mathlib
import OnePass.Proofs.Rows

namespace OnePass

def ProgramLine.alone (q : ProgramLine) : ProgramLine := { q with line := 1 }

namespace Assembly

section

variable {n : Nat} {p : List Piece} {ls : List Line}

theorem Reads.move (h : Reads n p ls) (k : Nat) :
    Reads k p (ls.map fun l => { l with line := k }) := by
  induction h with
  | nil => exact .nil
  | lone m => exact .lone m
  | cons m first more _ ih => exact .cons m first more ih

theorem register_move {a : Argument} {q : Reg} (h : register n a = .ok q) (k : Nat) :
    register k a = .ok q := by
  cases a with
  | immediate m => contradiction
  | name s =>
    rw [register] at h ⊢
    cases hs : Reg.ofName? s.toLower <;> simp_all

theorem oneRegister_move {m : String} {l : Line} {make : Reg → Instr} {i : Instr}
    (h : oneRegister m l make = .ok i) (k : Nat) :
    oneRegister m { l with line := k } make = .ok i := by
  unfold oneRegister at h ⊢
  split at h
  · next a ha =>
    obtain ⟨q, hq, rfl⟩ := exists_of_map_eq_ok h
    simp only [ha, register_move hq k]
    rfl
  · contradiction

theorem twoRegisters_move {m : String} {l : Line} {ab : Reg × Reg}
    (h : twoRegisters m l = .ok ab) (k : Nat) : twoRegisters m { l with line := k } = .ok ab := by
  unfold twoRegisters at h ⊢
  split at h
  · next a b hargs =>
    obtain ⟨q, ha, h⟩ := exists_of_bind_eq_ok h
    obtain ⟨q', hb, h⟩ := exists_of_bind_eq_ok h
    simp only [hargs, register_move ha k, register_move hb k]
    exact h
  · contradiction

theorem scratchRegisters_move {m : String} {l : Line} {make : Reg → Reg → Instr} {i : Instr}
    (h : scratchRegisters m l make = .ok i) (k : Nat) :
    scratchRegisters m { l with line := k } make = .ok i := by
  unfold scratchRegisters at h ⊢
  obtain ⟨ab, hab, h⟩ := exists_of_bind_eq_ok h
  rw [twoRegisters_move hab k]
  simp only [bind, Except.bind] at h ⊢
  split_ifs at h ⊢
  exact h

theorem oneImmediate_move {m : String} {l : Line} {make : Int → Instr} {i : Instr}
    (h : oneImmediate m l make = .ok i) (k : Nat) :
    oneImmediate m { l with line := k } make = .ok i := by
  unfold oneImmediate at h ⊢
  split at h
  · next _ hargs => rwa [hargs]
  · contradiction

theorem decode_move {l : Line} {i : Instr} (h : decode l = .ok i) (k : Nat) :
    decode { l with line := k } = .ok i := by
  unfold decode at h ⊢
  dsimp only at h ⊢
  generalize l.mnemonic.toLower = m at h ⊢
  split at h
  · exact oneRegister_move h k
  · exact oneRegister_move h k
  · obtain ⟨ab, hab, rfl⟩ := exists_of_map_eq_ok h
    rw [twoRegisters_move hab k]
    rfl
  · exact scratchRegisters_move h k
  · exact scratchRegisters_move h k
  · exact scratchRegisters_move h k
  · exact scratchRegisters_move h k
  · exact scratchRegisters_move h k
  · exact oneImmediate_move h k
  · exact oneImmediate_move h k
  · exact oneImmediate_move h k
  · split at h
    · exact h
    · contradiction
  · contradiction

end

/-- An instruction of a program with the line that it is decoded from and the text of its row. -/
def Entry (text : String) (l : Line) (q : ProgramLine) : Prop :=
  decode l = .ok q.instr ∧ q.line = l.line ∧ q.text = text

/-- Pieces on line `n` that are instructions of a program. -/
def Holds (n : Nat) (p : List Piece) (text : String) (here : List ProgramLine) : Prop :=
  ∃ ls, Reads n p ls ∧ List.Forall₂ (Entry text) ls here

/-- A text that starts on line `n`, with the instructions that its rows hold. -/
inductive Assembles : Nat → List Char → List ProgramLine → Prop
  | last {n : Nat} {p : List Piece} {r : List Char} {here : List ProgramLine} (row : Row p r)
    (holds : Holds n p (bare r) here) : Assembles n r here
  | next {n : Nat} {p : List Piece} {r cs : List Char} {here more : List ProgramLine}
    (row : Ended p r) (holds : Holds n p (bare r) here) (below : Assembles (n + 1) cs more) :
    Assembles n (r ++ '\n' :: cs) (here ++ more)

theorem forall₂_append {α β : Type} {R : α → β → Prop} {xs ys : List α} {zs : List β}
    (h : List.Forall₂ R (xs ++ ys) zs) :
    ∃ us vs, zs = us ++ vs ∧ List.Forall₂ R xs us ∧ List.Forall₂ R ys vs :=
  ⟨zs.take xs.length, zs.drop xs.length, (List.take_append_drop _ _).symm,
    (List.forall₂_take_append _ _ _ h.flip).flip, (List.forall₂_drop_append _ _ _ h.flip).flip⟩

theorem forall₂_of_mapM {α β ε : Type} {f : α → Except ε β} {xs : List α} {ys : List β}
    (h : xs.mapM f = .ok ys) : List.Forall₂ (fun x y => f x = .ok y) xs ys := by
  induction xs generalizing ys with
  | nil =>
    obtain rfl : [] = ys := Except.ok.inj h
    exact .nil
  | cons x xs ih =>
    rw [List.mapM_cons] at h
    obtain ⟨y, hx, h⟩ := exists_of_bind_eq_ok h
    obtain ⟨zs, hxs, h⟩ := exists_of_bind_eq_ok h
    obtain rfl : y :: zs = ys := Except.ok.inj h
    exact .cons hx (ih hxs)

/-- The instructions that `cs` spells from line `n` on, each with the text of its row. -/
def Placed (n : Nat) (cs : List Char) (ls : List Line) (program : List ProgramLine) : Prop :=
  List.Forall₂ (fun l => Entry (bare ((splitLines cs).getD (l.line - n) [])) l) ls program

theorem entry_iff {text : String} {l : Line} {q : ProgramLine} :
    (decode l >>= fun i => pure ⟨i, l.line, text⟩ : Except Error ProgramLine) = .ok q ↔
      Entry text l q := by
  obtain ⟨instr, line, text'⟩ := q
  unfold Entry
  cases decode l with
  | error err => simp [bind, Except.bind]
  | ok i =>
    simp only [bind, Except.bind, pure, Except.pure, Except.ok.injEq, ProgramLine.mk.injEq]
    tauto

theorem assembleLines_eq_ok_iff {cs : List Char} {ls : List Line} {program : List ProgramLine} :
    assembleLines (splitLines cs).toArray ls = .ok program ↔ Placed 1 cs ls program := by
  have hsource : ∀ k, (splitLines cs).toArray.getD k [] = (splitLines cs).getD k [] := by
    intro k
    simp
  unfold assembleLines Placed
  constructor
  · intro h
    refine (forall₂_of_mapM h).imp fun l q hq => ?_
    rw [← hsource]
    exact entry_iff.1 hq
  · intro h
    apply mapM_eq_ok
    refine h.imp fun l q hq => ?_
    rw [← hsource] at hq
    exact entry_iff.2 hq

theorem assembleChars_eq_ok_iff {cs : List Char} {program : List ProgramLine} :
    assembleChars cs = .ok program ↔ ∃ ls, Spells 1 cs ls ∧ Placed 1 cs ls program := by
  simp only [← assembleLines_eq_ok_iff, Spells, assembleChars, bind, Except.bind]
  cases lexemes 1 1 cs with
  | error err => simp
  | ok ts => cases hls : lines ts <;> simp [hls]

section

variable {n : Nat} {p : List Piece} {r cs : List Char} {ls : List Line}
  {here program : List ProgramLine}

theorem Ended.inside (h : Ended p r) : ∀ c ∈ r, c ≠ '\n' := by
  cases h with
  | row row =>
    cases row with
    | plain code => exact fun c hc => (code.inside c hc).2
    | comment code inside =>
      intro c hc
      rcases List.mem_append.1 hc with hc | hc
      · exact (code.inside c hc).2
      · rintro rfl
        simp_all
  | returned code =>
    intro c hc
    rcases List.mem_append.1 hc with hc | hc
    · exact (code.inside c hc).2
    · simp_all

theorem splitLines_row (h : ∀ c ∈ r, c ≠ '\n') : splitLines r = [r] := by
  induction r with
  | nil => rfl
  | cons c r ih =>
    rw [List.forall_mem_cons] at h
    rw [splitLines, ih h.2]
    simp [h.1]

theorem entries_congr {f g : Line → String} (h : ∀ l ∈ ls, f l = g l) :
    List.Forall₂ (fun l => Entry (f l) l) ls here ↔
      List.Forall₂ (fun l => Entry (g l) l) ls here := by
  induction ls generalizing here with
  | nil => simp
  | cons l ls ih =>
    rw [List.forall_mem_cons] at h
    simp only [List.forall₂_cons_left_iff, h.1, ih h.2]

theorem Reads.placed_iff (h : Reads n p ls) {rows : List (List Char)}
    (hrows : splitLines cs = r :: rows) :
    Placed n cs ls here ↔ List.Forall₂ (Entry (bare r)) ls here := by
  apply entries_congr
  intro l hl
  rw [h.line_eq l hl, Nat.sub_self, hrows]
  rfl

theorem Parses.placed_below_iff (h : Parses (n + 1) cs ls) {ds : List Char}
    (hrows : splitLines ds = r :: splitLines cs) :
    Placed n ds ls here ↔ Placed (n + 1) cs ls here := by
  apply entries_congr
  intro l hl
  have hline := h.le_line l hl
  -- without `hline` the subtraction could be cut off at 0
  have hsucc : l.line - n = l.line - (n + 1) + 1 := by omega
  rw [hrows, hsucc, List.getD_cons_succ]

theorem Parses.assembles (h : Parses n cs ls) (hplaced : Placed n cs ls program) :
    Assembles n cs program := by
  induction h generalizing program with
  | last row read =>
    have hrows := splitLines_row (Ended.row row).inside
    exact .last row ⟨_, read, (read.placed_iff hrows).1 hplaced⟩
  | @next n p r cs ls more row read below ih =>
    have hrows := splitLines_append row.inside cs
    obtain ⟨here, rest, rfl, hhere, hrest⟩ := forall₂_append hplaced
    exact .next row ⟨ls, read, (read.placed_iff hrows).1 hhere⟩
      (ih ((below.placed_below_iff hrows).1 hrest))

theorem Assembles.parses (h : Assembles n cs program) :
    ∃ ls, Parses n cs ls ∧ Placed n cs ls program := by
  induction h with
  | last row holds =>
    obtain ⟨ls, read, hentries⟩ := holds
    have hrows := splitLines_row (Ended.row row).inside
    exact ⟨ls, .last row read, (read.placed_iff hrows).2 hentries⟩
  | @next n p r cs here more row holds _ ih =>
    obtain ⟨ls, read, hentries⟩ := holds
    obtain ⟨ls', below, hplaced⟩ := ih
    have hrows := splitLines_append row.inside cs
    exact ⟨ls ++ ls', .next row read below, List.rel_append ((read.placed_iff hrows).2 hentries)
      ((below.placed_below_iff hrows).2 hplaced)⟩

/-- A text is assembled to the instructions that its rows hold. -/
theorem assembleChars_eq_ok_iff_assembles :
    assembleChars cs = .ok program ↔ Assembles 1 cs program := by
  simp only [assembleChars_eq_ok_iff, spells_iff_parses]
  constructor
  · rintro ⟨ls, hparses, hplaced⟩
    exact hparses.assembles hplaced
  · exact Assembles.parses

end

section

variable {n : Nat} {p : List Piece} {r cs : List Char} {text : String}
  {here program : List ProgramLine}

theorem Holds.line_eq (h : Holds n p text here) : ∀ q ∈ here, q.line = n ∧ q.text = text := by
  obtain ⟨ls, read, hentries⟩ := h
  have hline := read.line_eq
  clear read
  induction hentries with
  | nil => simp
  | cons hentry _ ih =>
    rw [List.forall_mem_cons] at hline ⊢
    refine ⟨⟨?_, hentry.2.2⟩, ih hline.2⟩
    rw [hentry.2.1, hline.1]

theorem Holds.alone (h : Holds n p text here) : Holds 1 p text (here.map ProgramLine.alone) := by
  obtain ⟨ls, read, hentries⟩ := h
  refine ⟨_, read.move 1, ?_⟩
  rw [List.forall₂_map_left_iff, List.forall₂_map_right_iff]
  exact hentries.imp fun l q hq => ⟨decode_move hq.1 1, rfl, hq.2.2⟩

theorem Ended.assembleChars_bare (row : Ended p r) (h : Holds n p (bare r) here) :
    assembleChars (bare r).toList = .ok (here.map ProgramLine.alone) := by
  rw [assembleChars_eq_ok_iff_assembles]
  refine .last (.plain row.bare_laid) ?_
  rw [row.bare_bare]
  exact h.alone

theorem Assembles.le_line (h : Assembles n cs program) : ∀ q ∈ program, n ≤ q.line := by
  induction h with
  | last _ holds => exact fun q hq => (holds.line_eq q hq).1.ge
  | next _ holds _ ih =>
    intro q hq
    rcases List.mem_append.1 hq with hq | hq
    · exact (holds.line_eq q hq).1.ge
    · have := ih q hq
      omega

theorem Holds.lt_below (h : Holds n p text here) (below : Assembles (n + 1) cs program) :
    ∀ a ∈ here, ∀ b ∈ program, a.line < b.line := by
  intro a ha b hb
  have hline := (h.line_eq a ha).1
  have hbelow := below.le_line b hb
  omega

theorem Holds.sorted (h : Holds n p text here) : here.Pairwise fun a b => a.line ≤ b.line := by
  refine List.pairwise_of_forall_mem_list fun a ha b hb => ?_
  rw [(h.line_eq a ha).1, (h.line_eq b hb).1]

theorem Assembles.sorted (h : Assembles n cs program) :
    program.Pairwise fun a b => a.line ≤ b.line := by
  induction h with
  | last _ holds => exact holds.sorted
  | next _ holds below ih =>
    exact List.pairwise_append.2
      ⟨holds.sorted, ih, fun a ha b hb => (holds.lt_below below a ha b hb).le⟩

theorem Holds.filter_line (h : Holds n p text here) (k : Int) :
    here.filter (·.line = k) = if k = n then here else [] := by
  split
  · next hk => exact List.filter_eq_self.2 fun q hq => by simp [(h.line_eq q hq).1, hk]
  · next hk =>
    refine List.filter_eq_nil_iff.2 fun q hq => ?_
    simpa [(h.line_eq q hq).1] using Ne.symm hk

/-- The text of an instruction is assembled to the instructions of its line. -/
theorem Assembles.assembleChars_text (h : Assembles n cs program) :
    ∀ q ∈ program, assembleChars q.text.toList =
      .ok ((program.filter (·.line = q.line)).map ProgramLine.alone) := by
  induction h with
  | last row holds =>
    intro q hq
    obtain ⟨hline, htext⟩ := holds.line_eq q hq
    rw [htext, hline, holds.filter_line, if_pos rfl]
    exact (Ended.row row).assembleChars_bare holds
  | @next n _ _ _ _ more row holds below ih =>
    intro q hq
    rw [List.filter_append, holds.filter_line]
    -- an instruction is either on the first row or below it, and the filter keeps only that part
    rcases List.mem_append.1 hq with hq | hq
    · obtain ⟨hline, htext⟩ := holds.line_eq q hq
      have hmore : more.filter (·.line = q.line) = [] :=
        List.filter_eq_nil_iff.2 fun b hb => by simpa using (holds.lt_below below q hq b hb).ne'
      rw [htext, hmore, hline, if_pos rfl, List.append_nil]
      exact row.assembleChars_bare holds
    · have hbelow := below.le_line q hq
      rw [if_neg (by omega), List.nil_append]
      exact ih q hq

end

/-- Texts of which no row holds two instructions. -/
def OnePerLine (cs : List Char) : Prop :=
  ∀ r ∈ splitLines cs, ∀ ps, assembleChars (bare r).toList = .ok ps → ps.length ≤ 1

section

variable {n : Nat} {p : List Piece} {r cs : List Char} {text : String}
  {here program : List ProgramLine}

theorem Holds.increasing_iff (h : Holds n p text here) :
    here.Pairwise (fun a b => a.line < b.line) ↔ here.length ≤ 1 := by
  have hline := h.line_eq
  cases here with
  | nil => simp
  | cons a here =>
    cases here with
    | nil => simp
    | cons b here =>
      simp_all

theorem Ended.length_le_one_iff (row : Ended p r) (h : Holds n p (bare r) here) :
    (∀ ps, assembleChars (bare r).toList = .ok ps → ps.length ≤ 1) ↔ here.length ≤ 1 := by
  simp [row.assembleChars_bare h]

theorem Ended.alone_iff (row : Ended p r) (h : Holds n p (bare r) here) :
    (∀ q ∈ here, assembleChars q.text.toList = .ok [q.alone]) ↔ here.length ≤ 1 := by
  have hrow : ∀ q ∈ here, assembleChars q.text.toList = .ok (here.map ProgramLine.alone) := by
    intro q hq
    rw [(h.line_eq q hq).2]
    exact row.assembleChars_bare h
  cases here with
  | nil => simp
  | cons a here =>
    cases here with
    | nil => simpa using hrow
    | cons b here => simp [hrow]

theorem onePerLine_append (hr : ∀ c ∈ r, c ≠ '\n') :
    OnePerLine (r ++ '\n' :: cs) ↔
      (∀ ps, assembleChars (bare r).toList = .ok ps → ps.length ≤ 1) ∧ OnePerLine cs := by
  rw [OnePerLine, splitLines_append hr, List.forall_mem_cons]
  rfl

theorem onePerLine_row (hr : ∀ c ∈ r, c ≠ '\n') :
    OnePerLine r ↔ ∀ ps, assembleChars (bare r).toList = .ok ps → ps.length ≤ 1 := by
  simp [OnePerLine, splitLines_row hr]

theorem Assembles.increasing_iff (h : Assembles n cs program) :
    program.Pairwise (fun a b => a.line < b.line) ↔ OnePerLine cs := by
  induction h with
  | last row holds =>
    have row := Ended.row row
    rw [onePerLine_row row.inside, row.length_le_one_iff holds, holds.increasing_iff]
  | next row holds below ih =>
    rw [onePerLine_append row.inside, row.length_le_one_iff holds, ← holds.increasing_iff, ← ih,
      List.pairwise_append]
    exact and_congr_right fun _ => and_iff_left (holds.lt_below below)

/-- Every instruction is that of its text alone exactly if no row holds two. -/
theorem Assembles.alone_iff (h : Assembles n cs program) :
    (∀ q ∈ program, assembleChars q.text.toList = .ok [q.alone]) ↔ OnePerLine cs := by
  induction h with
  | last row holds =>
    have row := Ended.row row
    rw [onePerLine_row row.inside, row.length_le_one_iff holds, row.alone_iff holds]
  | next row holds _ ih =>
    rw [onePerLine_append row.inside, row.length_le_one_iff holds, ← row.alone_iff holds, ← ih,
      List.forall_mem_append]

end

end Assembly

open Assembly

/-- Instructions come in the order of their lines, and the text of one is assembled alone to all
that its line holds. The lines are distinct, and each text is the text of its own instruction alone,
exactly if no line of the text holds two instructions. -/
theorem assemble_onePerLine_iff {code : List UInt8} {program : List ProgramLine}
    (h : assemble code = .ok program) :
    (program.Pairwise fun a b => a.line ≤ b.line) ∧
    (∀ q ∈ program, assemble q.text.toUTF8.toList =
      .ok ((program.filter (·.line = q.line)).map ProgramLine.alone)) ∧
    ((program.Pairwise fun a b => a.line < b.line) ↔ OnePerLine (Text.decodeBytes code)) ∧
    ((∀ q ∈ program, assemble q.text.toUTF8.toList = .ok [q.alone]) ↔
      OnePerLine (Text.decodeBytes code)) := by
  have hrows := assembleChars_eq_ok_iff_assembles.1 h
  simp only [assemble, Text.decodeBytes_toUTF8]
  exact ⟨hrows.sorted, hrows.assembleChars_text, hrows.increasing_iff, hrows.alone_iff⟩

theorem assemble_onePerLine_iff_commented :
    OnePerLine (Text.decodeBytes "movi #1 ; pop r1\r\n\tPUSH R0".toUTF8.toList) ∧
    assemble "PUSH R0".toUTF8.toList = .ok [⟨.push .r0, 1, "PUSH R0"⟩] := by
  have h : assemble "movi #1 ; pop r1\r\n\tPUSH R0".toUTF8.toList =
      .ok [⟨.movi 1, 1, "movi #1"⟩, ⟨.push .r0, 2, "PUSH R0"⟩] := by decide +kernel
  obtain ⟨-, -, hincreasing, halone⟩ := assemble_onePerLine_iff h
  have hone := hincreasing.1 (by decide)
  exact ⟨hone, halone.2 hone ⟨.push .r0, 2, "PUSH R0"⟩ (by simp)⟩

/-- Nothing has to stand between two instructions but a blank: they share their line and its text,
which is that of neither alone. -/
theorem assemble_shared_line : ∃ program, assemble "push r0 pop r1".toUTF8.toList = .ok program ∧
    ¬(program.Pairwise fun a b => a.line < b.line) ∧
    ∀ q ∈ program, assemble q.text.toUTF8.toList ≠ .ok [q.alone] := by
  refine ⟨[⟨.push .r0, 1, "push r0 pop r1"⟩, ⟨.pop .r1, 1, "push r0 pop r1"⟩], ?_, ?_, ?_⟩
  · decide +kernel
  · decide
  · decide +kernel

end OnePass
