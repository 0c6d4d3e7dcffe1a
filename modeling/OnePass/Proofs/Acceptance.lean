import Mathlib
import OnePass.Proofs.Naming
import OnePass.Proofs.SourceText
import OnePass.Proofs.Spelling

namespace OnePass

/-- Tokens as the lexer makes them: identifiers are words, and integers are not negative. -/
structure Token.Spelled (tok : Token) : Prop where
  name : tok.type = .identifier → Assembly.isName tok.name
  value : tok.type = .integer → 0 ≤ tok.value

theorem Token.spelled_of_fixed {tok : Token} (h : tok.type ≠ .identifier ∧ tok.type ≠ .integer) :
    tok.Spelled :=
  ⟨fun hname => absurd hname h.1, fun hint => absurd hint h.2⟩

theorem TokenType.keyword?_fixed {w : String} {type : TokenType} (h : keyword? w = some type) :
    type ≠ .identifier ∧ type ≠ .integer := by
  unfold keyword? at h
  split at h <;> cases h <;> simp

theorem TokenType.mark?_fixed {b : UInt8} {type : TokenType} (h : mark? b = some type) :
    type ≠ .identifier ∧ type ≠ .integer := by
  unfold mark? at h
  split at h <;> cases h <;> simp

namespace Lexer

variable {s t : Lexer}

theorem prefix_readMore {tries : Nat} (h : readMore tries s = .ok () t) :
    s.pending <+: t.pending := by
  induction tries generalizing s with
  | zero => simp [readMore] at h
  | succ tries ih =>
    simp only [readMore] at h
    split at h
    · simp at h
    · split at h
      · obtain ⟨-, rfl⟩ := EStateM.Result.ok.inj h
        exact List.prefix_append _ _
      · simp at h
      · split at h
        · obtain ⟨-, rfl⟩ := EStateM.Result.ok.inj h
          exact List.prefix_append _ _
        · exact (List.prefix_append _ _).trans (ih h)

theorem prefix_refill (h : refill s = .ok () t) : s.pending <+: t.pending := by
  simp only [refill] at h
  split at h
  · simp at h
  · exact prefix_readMore (s := s.slide) h

/-- A run is the first pending byte and bytes of its class, however they were read. -/
theorem run_bytes {p : UInt8 → Bool} {b : UInt8} {bs ws : List UInt8} (hs : s.pending = b :: bs)
    (h : run p s = .ok ws t) : ∃ vs, ws = b :: vs ∧ ∀ v ∈ vs, p v := by
  -- a refill may change what follows the first byte, so only that byte is kept
  have hhead : s.pending.head? = some b := by rw [hs]; rfl
  clear hs
  fun_induction run p s with
  | case1 => simp at h
  | case2 s n hn u hu ih =>
    obtain ⟨cs, hcs⟩ := prefix_refill hu
    exact ih h (by rw [← hcs, List.head?_append, hhead]; rfl)
  | case3 => simp at h
  | case4 s n =>
    obtain ⟨rfl, -⟩ := EStateM.Result.ok.inj h
    obtain ⟨bs, hs⟩ := List.head?_eq_some_iff.1 hhead
    have htake := take_runLength p b bs
    rw [← hs] at htake
    exact ⟨bs.takeWhile p, htake, fun v hv => List.mem_takeWhile_imp hv⟩

theorem isIdent_of_byte (b : UInt8) :
    (isLetter b → Assembly.isIdentStart (Char.ofNat b.toNat)) ∧
      (isAlnum b → Assembly.isIdent (Char.ofNat b.toNat)) := by
  have hall : ∀ n : Fin 256, (isLetter (UInt8.ofNat n) → Assembly.isIdentStart (Char.ofNat n)) ∧
      (isAlnum (UInt8.ofNat n) → Assembly.isIdent (Char.ofNat n)) := by
    decide +kernel
  have hb := hall ⟨b.toNat, b.toNat_lt⟩
  rwa [UInt8.ofNat_toNat] at hb

theorem isName_ascii {b : UInt8} {bs : List UInt8} (hb : isLetter b) (hbs : ∀ v ∈ bs, isAlnum v) :
    Assembly.isName (ascii (b :: bs)) := by
  rw [Assembly.isName, ascii, String.toList_ofList, List.map_cons]
  dsimp only
  rw [(isIdent_of_byte b).1 hb, Bool.true_and, List.all_eq_true]
  intro c hc
  obtain ⟨v, hv, rfl⟩ := List.mem_map.1 hc
  exact (isIdent_of_byte v).2 (hbs v hv)

theorem digits_nonneg {bs : List UInt8} (hbs : ∀ v ∈ bs, isDigit v) {n : Int} (hn : 0 ≤ n) :
    0 ≤ bs.foldl (fun n b => n * 10 + (b.toNat - 48 : Int)) n := by
  induction bs generalizing n with
  | nil => exact hn
  | cons b bs ih =>
    rw [List.forall_mem_cons] at hbs
    have hb : 48 ≤ b.toNat := by
      have := hbs.1
      simp only [isDigit, Bool.and_eq_true, decide_eq_true_eq, UInt8.le_iff_toNat_le] at this
      exact this.1
    refine ih hbs.2 ?_
    change 0 ≤ n * 10 + (b.toNat - 48 : Int)
    omega

theorem spelled_number {b : UInt8} {bs : List UInt8} {tok : Token} (hs : s.pending = b :: bs)
    (hb : isDigit b) (h : number s = .ok tok t) : tok.Spelled := by
  unfold number at h
  split at h
  · simp at h
  · next digits u hrun =>
    split at h
    · simp at h
    · obtain ⟨rfl, -⟩ := EStateM.Result.ok.inj h
      obtain ⟨vs, rfl, hvs⟩ := run_bytes hs hrun
      exact ⟨nofun, fun _ => digits_nonneg (List.forall_mem_cons.2 ⟨hb, hvs⟩) le_rfl⟩

theorem spelled_word {b : UInt8} {bs : List UInt8} {tok : Token} (hs : s.pending = b :: bs)
    (hb : isLetter b) (h : word s = .ok tok t) : tok.Spelled := by
  unfold word at h
  split at h
  · simp at h
  · next bytes u hrun =>
    split at h
    · next type hkey =>
      obtain ⟨rfl, -⟩ := EStateM.Result.ok.inj h
      exact Token.spelled_of_fixed (TokenType.keyword?_fixed hkey)
    · obtain ⟨rfl, -⟩ := EStateM.Result.ok.inj h
      obtain ⟨vs, rfl, hvs⟩ := run_bytes hs hrun
      exact ⟨fun _ => isName_ascii hb hvs, nofun⟩

theorem spelled_token {b : UInt8} {bs : List UInt8} {tok : Token} (hs : s.pending = b :: bs)
    (h : token b s = .ok tok t) : tok.Spelled := by
  unfold token at h
  split at h
  · next hb => exact spelled_number hs hb h
  · split at h
    · next hb => exact spelled_word hs hb h
    · split at h
      · next type hmark =>
        obtain ⟨rfl, -⟩ := EStateM.Result.ok.inj h
        exact Token.spelled_of_fixed (TokenType.mark?_fixed hmark)
      · simp at h

theorem spelled_next {tok : Token} (h : next s = .ok tok t) : tok.Spelled := by
  fun_induction next s with
  | case1 s b rest hp => exact spelled_token hp h
  | case2 =>
    obtain ⟨rfl, -⟩ := EStateM.Result.ok.inj h
    exact ⟨by simp, by simp⟩
  | case3 => simp at h
  | case4 s _ hended u hu ih => exact ih h

theorem spelled_tokens : ∀ tok ∈ s.tokens.1, tok.Spelled := by
  fun_induction tokens s with
  | case1 => simp
  | case2 => simp
  | case3 s tok t hnext hne rest ih => exact List.forall_mem_cons.2 ⟨spelled_next hnext, ih⟩

end Lexer

/-- Every token is spelled so, whatever the feed delivers. -/
theorem spelled_tokenize (feed : Feed) (size : Option Int) :
    ∀ tok ∈ (tokenize feed size).tokens, tok.Spelled := by
  have h := Lexer.spelled_tokens (s := Lexer.start feed size)
  unfold tokenize
  split <;> simp_all

theorem Instr.legible_of_plain {i : Instr} (h : i.plain) : i.legible := by
  cases i with
  | movi n =>
    obtain rfl : n = 0 := of_decide_eq_true h
    rfl
  | _ => simp_all [plain, legible, Reg.real]

/-- The code of well spelled tokens can be read back. -/
theorem legible_compile {ids : IdSupply} {ts : List Token} {s : Session}
    (hts : ∀ tok ∈ ts, tok.Spelled) (h : (Build.compile ts).run (.fresh ids) = .ok () s) :
    ∀ i ∈ s.code, i.legible := by
  -- the source is compared with itself; what counts is which instructions are allowed
  have hends := Link.ends_whole ids Function.injective_id
    (fun i => Instr.legible_of_plain) ts (fun tok htok => ?_)
  · rw [h] at hends
    obtain ⟨_, _, -, hbetween⟩ := hends.exists_ok
    exact hbetween.allowed
  · refine ⟨fun hname => (hts tok htok).name hname, fun hint hle => ?_⟩
    have := (hts tok htok).value hint
    exact decide_eq_true (wrap_eq_self (by omega) (by omega))

theorem Reg.real_iff {r : Reg} : r.real ↔ r.scratch ∨ r = .sp := by simp [real]

/-- How an instruction traps: it calls a function that is not registered, or one whose arguments
there is no room for. -/
inductive Refuses (hosts : HostTable) : Instr → Trap → Prop
  | unregistered {f : String} (h : hosts.lookup f = none) :
    Refuses hosts (.call f) (.unknownFunction f)
  | unallotted {f : String} {host : Host} (h : hosts.lookup f = some host)
    (hroom : fitsInMemory 2 host.arity = false) :
    Refuses hosts (.call f) (.fault .countOutOfRange)

namespace Exec

variable {hosts : HostTable} {c d : Core}

theorem setReg_real {r : Reg} (h : r.real) (v : UInt16) : ∃ d, (setReg r v).run c = .ok () d := by
  cases r with
  | other => simp [Reg.real, Reg.scratch] at h
  | _ => exact ⟨_, rfl⟩

theorem call_cases (f : String) (c : Core) :
    (∃ d, (call hosts f).run c = .ok () d) ∨
      ∃ trap, Refuses hosts (.call f) trap ∧ (call hosts f).run c = .error trap c := by
  cases hlookup : hosts.lookup f with
  | none => exact .inr ⟨_, .unregistered hlookup, by simp [call, hlookup]⟩
  | some host =>
    cases hroom : fitsInMemory 2 host.arity with
    | true => exact .inl ⟨_, run_call hlookup hroom⟩
    | false => exact .inr ⟨_, .unallotted hlookup hroom, by simp [call, hlookup, hroom]⟩

/-- An instruction of registers that exist is carried out, or it is a call that is refused. -/
theorem instr_cases {i : Instr} (h : i.legible) (c : Core) :
    (∃ d, (instr hosts i).run c = .ok () d) ∨
      ∃ trap, Refuses hosts i trap ∧ (instr hosts i).run c = .error trap c := by
  cases i with
  | movi n => exact .inl ⟨_, rfl⟩
  | addi n => exact .inl ⟨_, rfl⟩
  | subi n => exact .inl ⟨_, rfl⟩
  | mov a b =>
    simp only [Instr.legible, Bool.and_eq_true] at h
    obtain ⟨v, hv⟩ := run_getReg (c := c) (Reg.real_iff.1 h.2)
    obtain ⟨d, hd⟩ := setReg_real (c := c) h.1 v
    exact .inl ⟨d, by simp [instr, hv, hd]⟩
  | alu op a b =>
    simp only [Instr.legible, Bool.and_eq_true] at h
    obtain ⟨v, hv⟩ := run_getReg (c := c) (.inl h.1)
    obtain ⟨w, hw⟩ := run_getReg (c := c) (.inl h.2)
    obtain ⟨d, hd, -⟩ := run_setReg (c := c) h.1 (op.apply v w)
    exact .inl ⟨d, by simp [instr, hv, hw, hd]⟩
  | push r =>
    obtain ⟨v, hv⟩ := run_getReg (c := c) (Reg.real_iff.1 h)
    have hrun : (instr hosts (.push r)).run c = (push v).run c := by
      rw [instr, EStateM.run_bind, hv]
    exact .inl ⟨_, hrun.trans rfl⟩
  | pop r =>
    obtain ⟨d, hd⟩ := setReg_real (c := { c with sp := c.sp + 1 }) h (c.memory.read c.sp)
    exact .inl ⟨d, by simp [instr, hd]⟩
  | ldr a b =>
    simp only [Instr.legible, Bool.and_eq_true] at h
    obtain ⟨v, hv⟩ := run_getReg (c := c) (.inl h.2)
    obtain ⟨d, hd, -⟩ := run_setReg (c := c) h.1 (c.memory.read v)
    exact .inl ⟨d, by simp [instr, hv, hd, read]⟩
  | str a b =>
    simp only [Instr.legible, Bool.and_eq_true] at h
    obtain ⟨v, hv⟩ := run_getReg (c := c) (.inl h.1)
    obtain ⟨w, hw⟩ := run_getReg (c := c) (.inl h.2)
    have hrun : (instr hosts (.str a b)).run c = (write v w).run c := by simp [instr, hv, hw]
    exact .inl ⟨_, hrun.trans rfl⟩
  | call f => exact call_cases f c
  | unknown => contradiction

end Exec

namespace Cpu

/-- How a run of a program ends on a machine with these host functions. Normally all instructions
have been carried out; a call is refused at its own line. -/
inductive Ends (program : Array ProgramLine) (hosts : HostTable) (max : Int) : Outcome → Prop
  | normal {d : Cpu} (halted : d.halted = true) (pc : d.pc = program.size) :
    Ends program hosts max (.ok () d)
  | stepLimit {d : Cpu} (steps : max ≤ d.steps) :
    Ends program hosts max (.error (.stepLimit d.steps) d)
  | refused {d : Cpu} {k : Nat} {l : ProgramLine} {trap : Trap} (pc : d.pc = k + 1)
    (line : program[k]? = some l) (refuses : Refuses hosts l.instr trap) :
    Ends program hosts max (.error (Halt.ofTrap l.line trap) d)

/-- A machine inside a program, or at its end. -/
structure Inside (program : Array ProgramLine) (hosts : HostTable) (c : Cpu) : Prop where
  loaded : c.program = program
  registered : c.hosts = hosts
  lower : 0 ≤ c.pc
  upper : c.pc ≤ program.size
  halted : c.halted = true → c.pc = program.size

variable {program : Array ProgramLine} {hosts : HostTable} {max : Int} {c : Cpu}

/-- A step of a machine inside a program stays inside, or is a refused call. -/
theorem Inside.step_cases (hc : c.Inside program hosts) (h : ∀ l ∈ program, l.instr.legible)
    (max : Int) :
    (∃ d, c.step = .ok () d ∧ d.Inside program hosts) ∨
      ∃ e d, c.step = .error e d ∧ Ends program hosts max (.error e d) := by
  obtain ⟨core, pc, steps, halted, lines, table⟩ := c
  obtain ⟨rfl, rfl, hlo, hhi, hhalt⟩ := hc
  dsimp only at h hlo hhi hhalt ⊢
  rw [step]
  -- halted, past the last line, or at a line of the program
  by_cases hh : halted = true
  · rw [if_pos hh]
    exact .inl ⟨_, rfl, rfl, rfl, hlo, hhi, hhalt⟩
  rw [if_neg hh]
  by_cases hend : (lines.size : Int) ≤ pc
  · rw [if_pos hend]
    exact .inl ⟨_, rfl, rfl, rfl, hlo, hhi, fun _ => le_antisymm hhi hend⟩
  rw [if_neg hend]
  obtain ⟨k, rfl⟩ := Int.eq_ofNat_of_zero_le hlo
  have hk : k < lines.size := by omega
  have hline : lines[k]? = some lines[k] := Array.getElem?_eq_getElem hk
  rw [decide_eq_false (by omega), Int.toNat_natCast, hline]
  dsimp only
  rcases Exec.instr_cases (h _ (Array.getElem_mem hk)) core with ⟨d, hd⟩ | ⟨trap, htrap, hd⟩ <;>
    rw [EStateM.run] at hd <;> rw [hd]
  · exact .inl ⟨_, rfl, rfl, rfl, by dsimp only; omega, by dsimp only; omega, by simp⟩
  · exact .inr ⟨_, _, rfl, .refused rfl hline htrap⟩

theorem Inside.ends (hc : c.Inside program hosts) (h : ∀ l ∈ program, l.instr.legible) :
    Ends program hosts max (c.run max) := by
  -- what a step leaves is inside again, so the run's own recursion carries the invariant
  fun_induction run max c with
  | case1 c hh => exact .normal hh (hc.halted hh)
  | case2 c hh hmax => exact .stepLimit hmax
  | case3 c hh hmax d hd ih =>
    rcases hc.step_cases h max with ⟨e, he, hin⟩ | ⟨_, _, he, _⟩ <;> rw [hd] at he
    · obtain ⟨-, rfl⟩ := EStateM.Result.ok.inj he
      exact ih hin
    · cases he
  | case4 c hh hmax e d hd =>
    rcases hc.step_cases h max with ⟨_, he, _⟩ | ⟨_, _, he, hends⟩ <;> rw [hd] at he
    · cases he
    · obtain ⟨rfl, rfl⟩ := EStateM.Result.error.inj he
      exact hends

theorem run_of_trap {d : Cpu} {e : Halt} (hrun : c.halted = false) (hmax : c.steps < max)
    (h : c.step = .error e d) : c.run max = .error e d := by
  rw [run, dif_neg (by simp [hrun]), if_neg (by omega)]
  split <;> simp_all

theorem inside_load (c : Cpu) (program : Array ProgramLine) :
    (c.load program).Inside program c.hosts where
  loaded := rfl
  registered := rfl
  lower := le_rfl
  upper := Int.natCast_nonneg _
  halted h := by
    have hempty : program = #[] := Array.isEmpty_iff.1 h
    rw [hempty]
    rfl

end Cpu

theorem compileFeed_ok {ids : IdSupply} {feed : Feed} {size : Option Int}
    (h : (compileFeed ids feed size).stop = none) :
    (Build.compile (tokenize feed size).tokens).run (.fresh ids) =
      .ok () (compileFeed ids feed size).session := by
  unfold compileFeed Session.run at h ⊢
  cases hallot : Lexer.allotBuffer size with
  | error f => simp [hallot] at h
  | ok =>
    cases herror : (tokenize feed size).error with
    | some e => simp [hallot, herror] at h
    | none =>
      cases hrun : (Build.compile (tokenize feed size).tokens).run (.fresh ids) with
      | ok _ s => simp [herror, hrun]
      | error e s => simp [hallot, herror, hrun] at h

/-- Whatever is compiled can be assembled and run. The listing of an accepted source is read back
as the very instructions that were emitted, one for each line, and a machine that runs them carries
out all of them, reaches its step limit, or stops at a call that its host functions refuse. -/
theorem compiled_code_accepted (ids : IdSupply) (feed : Feed) (size : Option Int)
    (h : (compileFeed ids feed size).stop = none) :
    let code := (compileFeed ids feed size).session.code.toList
    Assembly.assemble (listing code).toUTF8.toList = .ok (numbered code) ∧
      ∀ (cpu : Cpu) (max : Int), Cpu.Ends (numbered code).toArray cpu.hosts max
        ((cpu.load (numbered code).toArray).run max) := by
  intro code
  have hlegible : ∀ i ∈ code, i.legible := by
    intro i hi
    have hcode := legible_compile (spelled_tokenize feed size) (compileFeed_ok h)
    exact hcode i (Array.mem_toList_iff.1 hi)
  refine ⟨assemble_listing hlegible, fun cpu max => ?_⟩
  refine (cpu.inside_load _).ends fun l hl => ?_
  obtain ⟨k, hk, rfl⟩ := List.mem_mapIdx.1 (List.mem_toArray.1 hl)
  exact hlegible _ (List.getElem_mem hk)

def calling : Feed where
  bytes := [102, 40, 41, 59]

theorem tokenize_calling :
    (tokenize calling none).tokens = tokensOf "f();" ∧ (tokenize calling none).error = none :=
  tokenize_of_lex (.inl rfl) (by decide +kernel)

theorem compileFeed_calling :
    (compileFeed .serial calling none).stop = none ∧
      (compileFeed .serial calling none).session.code.toList = [.call "f", .pop .r1] := by
  obtain ⟨htokens, herror⟩ := tokenize_calling
  have hrun : ((Session.fresh .serial).run (Build.compile (tokensOf "f();"))).1.isOk ∧
      ((Session.fresh .serial).run (Build.compile (tokensOf "f();"))).2.code.toList =
        [.call "f", .pop .r1] := by
    decide +kernel
  have hallot : Lexer.allotBuffer none = .ok () := rfl
  rw [compileFeed, hallot]
  dsimp only
  rw [htokens, herror]
  dsimp only
  generalize (Session.fresh .serial).run (Build.compile (tokensOf "f();")) = r at hrun ⊢
  obtain ⟨result, s⟩ := r
  cases result with
  | error e => exact absurd hrun.1 nofun
  | ok => exact ⟨rfl, hrun.2⟩

theorem compiled_code_accepted_calling :
    (compileFeed .serial calling none).stop = none ∧
      Assembly.assemble (listing [.call "f", .pop .r1]).toUTF8.toList =
        .ok [⟨.call "f", 1, "call f"⟩, ⟨.pop .r1, 2, "pop r1"⟩] ∧
      ∀ (cpu : Cpu) (max : Int),
        Cpu.Ends #[⟨.call "f", 1, "call f"⟩, ⟨.pop .r1, 2, "pop r1"⟩] cpu.hosts max
          ((cpu.load #[⟨.call "f", 1, "call f"⟩, ⟨.pop .r1, 2, "pop r1"⟩]).run max) := by
  obtain ⟨hstop, hcode⟩ := compileFeed_calling
  have h := compiled_code_accepted .serial calling none hstop
  rw [hcode] at h
  exact ⟨hstop, h⟩

/-- The call is no unknown function, and yet it does not go through: room for -1 arguments is
called for. -/
theorem negative_arity_crashes :
    (compileFeed .serial calling none).stop = none ∧
      ∃ d, ((({} : Cpu).register "f" ⟨-1, fun _ => 0⟩).load
        (numbered (compileFeed .serial calling none).session.code.toList).toArray).run 1000 =
          .error (.crash .countOutOfRange) d := by
  obtain ⟨hstop, hcode⟩ := compileFeed_calling
  refine ⟨hstop, ?_⟩
  rw [hcode]
  exact ⟨_, Cpu.run_of_trap rfl (by decide) rfl⟩

end OnePass
