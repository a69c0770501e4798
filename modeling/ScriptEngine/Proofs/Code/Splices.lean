import ScriptEngine.Proofs.Code.Drafts
/-!
Splices never cut a finished distance.

There is one rule of `Keeps` for each way in which code is written, and with these every construct of the
compiler keeps a ledger in good order (`keeps_expr`, `keeps_stmt` and their companions, one for each kind of
tree). So everything that is asked for along the way is met when a program is compiled
(`distances_stay_whole`).
-/

namespace ScriptEngine.Code

open Source (Expr Exprs Entries Elements Stmt Declarator Declarators Commas Body Stmts LoopBody ForStart
  Clause Name)

namespace Ledger

/-! ## One rule for each way in which code is written -/

namespace Keeps

variable {least least' : Nat} {f f' : Ledger → Ledger} {g g' : Emitter → Emitter}

theorem nothing : Keeps 0 (fun e => e) fun t => t :=
  ⟨fun _ => rfl, fun h => ⟨0, Nat.le_refl _, .refl h⟩⟩

theorem mono (h : Keeps least g f) (hle : least' ≤ least) : Keeps least' g f :=
  ⟨h.emitter, fun ht => (h.drafts ht).imp fun _ => And.imp_left (Nat.le_trans hle)⟩

theorem instr (line : Nat) (i : Instr) : Keeps 1 (·.instr line i) (·.instr line i) :=
  ⟨fun t => emitter_instr t line i, fun h => ⟨_, i.length_encode_pos, .instr h line i⟩⟩

theorem andThen (h : Keeps least g f) (h' : Keeps least' g' f') :
    Keeps least (fun e => g' (g e)) fun t => f' (f t) where
  emitter t := by rw [h'.emitter, h.emitter]
  drafts ht := by
    obtain ⟨n, hn, hfirst⟩ := h.drafts ht
    obtain ⟨m, -, hall⟩ := hfirst.piece h'
    exact ⟨n + m, Nat.le_add_right_of_le hn, hall⟩

theorem thenInstr (h : Keeps least g f) (line : Nat) (i : Instr) :
    Keeps least (fun e => (g e).instr line i) fun t => (f t).instr line i :=
  h.andThen (instr line i)

theorem since (h : Keeps least g f) : Keeps least g fun t => (f t).since t :=
  ⟨h.emitter, fun ht => (h.drafts ht).imp fun _ => And.imp_right Drafts.since⟩

/-- A piece that a jump may pass over. -/
theorem jumpOver (h : Keeps least g f) (line : Nat) (o : Op) :
    Keeps 1 (fun e =>
        let hole := e.cursor + 1
        let e := g (e.jump line o)
        (e.patch hole e.cursor).1)
      fun t =>
        let hole := t.emitter.cursor + 1
        let t := f (t.jump line o)
        (t.patch hole t.emitter.cursor t.here).1 where
  emitter t := by simp [h.emitter]
  drafts {t} ht := by
    obtain ⟨n, -, hall⟩ := (Drafts.jump ht line o).piece h
    exact ⟨_, by omega, hall.patchHere (Nat.lt_succ_self _)⟩

/-- One of two pieces. -/
theorem choose (h : Keeps least g f) (h' : Keeps least' g' f') (line elseLine : Nat) :
    Keeps 1 (fun e =>
        let noHole := e.cursor + 1
        let e := g (e.jump line .jmpFalse)
        let endHole := e.cursor + 1
        let e := e.jump elseLine .jmp
        let noStart := e.cursor
        let e := g' e
        let (e, grown) := e.patch endHole e.cursor
        (e.patch noHole (grown.moved noStart)).1)
      fun t =>
        let noHole := t.emitter.cursor + 1
        let t := f (t.jump line .jmpFalse)
        let endHole := t.emitter.cursor + 1
        let t := t.jump elseLine .jmp
        let noStart := t.emitter.cursor
        let t := f' (t.hold .elseStart)
        let (t, grown) := t.patch endHole t.emitter.cursor t.here
        (t.patch noHole (grown.moved noStart) (t.place .elseStart)).1.release .elseStart where
  emitter t := by simp [h.emitter, h'.emitter]
  drafts {t} ht := by
    obtain ⟨n, -, hyes⟩ := (Drafts.jump ht line .jmpFalse).piece h
    have hjump := hyes.trans (Drafts.jump hyes.sound elseLine .jmp)
    have hstart := hjump.cursor
    obtain ⟨m, -, hno⟩ := (hjump.hold .elseStart).piece h'
    have hwaits := Spot.before_waiting
      (t.emitter.cursor + (1 + t.emitter.width + n + (1 + (f (t.jump line .jmpFalse)).emitter.width)))
    have hend := hno.cursor
    rw [← Nat.add_assoc] at hend
    obtain ⟨k, hk, hdone⟩ := hno.patchElse (Nat.lt_succ_self _) (by rw [hend]; exact hwaits.pushed)
      ((Spot.pushed_of_before hwaits).trans hstart.symm) (by omega)
    exact ⟨k, by omega, hdone⟩

/-- A function, out of the way of what is around it. -/
theorem function (h : Keeps 1 g f) (line endLine : Nat) :
    Keeps 1 (fun e =>
        let hole := e.cursor + 1
        let e := e.jump line .jmp
        let start := e.cursor
        let e := g e
        let (e, grown) := e.patch hole e.cursor
        e.instr endLine (.pushFunc (e.cursor - grown.moved start)))
      fun t =>
        let hole := t.emitter.cursor + 1
        let t := t.jump line .jmp
        let start := t.emitter.cursor
        let t := f (t.hold .functionStart)
        let (t, grown) := t.patch hole t.emitter.cursor t.here
        (t.pushFunc endLine (t.emitter.cursor - grown.moved start) (t.place .functionStart)).release
          .functionStart where
  emitter t := by simp [h.emitter]
  drafts {t} ht := by
    have hjump := Drafts.jump ht line .jmp
    have hstart := hjump.cursor
    obtain ⟨n, hn, hcode⟩ := (hjump.hold .functionStart).piece h
    have hwritten : Spot.pushed (t.emitter.cursor + (1 + t.emitter.width)) n
        ⟨t.emitter.cursor + (1 + t.emitter.width), false⟩ = ⟨(t.jump line .jmp).emitter.cursor, true⟩ := by
      rw [hstart, Spot.pushed_waiting hn]
    rw [List.map_cons, Prod.map_apply, hwritten] at hcode
    obtain ⟨m, hm, hdone⟩ := hcode.closeFunction ht (Nat.lt_succ_self _) (by omega)
      (by rw [hcode.cursor]; omega) endLine
    exact ⟨m, by omega, hdone⟩

/-- A loop with a test in front of its body. The next round starts right behind the operands. -/
theorem loop (h : Keeps least g f) (h' : Keeps least' g' f') (line bodyLine endLine : Nat) :
    Keeps 1 (fun e =>
        let e := e.op line .loop
        let breakHole := e.cursor
        let e := g ((e.placeholder line).write line (Varint.encode 0))
        let stopHole := e.cursor + 1
        let e := g' (e.jump bodyLine .jmpFalse)
        let e := (e.patch stopHole e.cursor).1.instr endLine .break
        (e.patch breakHole e.cursor).1)
      fun t =>
        let t := t.op line .loop
        let breakHole := t.emitter.cursor
        let t := f ((t.placeholder line).write line (Varint.encode 0))
        let stopHole := t.emitter.cursor + 1
        let t := f' (t.jump bodyLine .jmpFalse)
        let t := (t.patch stopHole t.emitter.cursor t.here).1.instr endLine .break
        (t.patch breakHole t.emitter.cursor t.here).1 where
  emitter t := by simp [h.emitter, h'.emitter]
  drafts {t} ht := by
    have hop : Drafts t (t.op line .loop) 1 [] [] := .write ht line [Op.loop.toByte]
    have hopen := hop.trans (.placeholder hop.sound line (strict_op t line .loop))
    have hzero := hopen.trans (.write hopen.sound line (Varint.encode 0))
    obtain ⟨n, -, htest⟩ := hzero.piece h
    have hjump := htest.trans (.jump htest.sound bodyLine .jmpFalse)
    obtain ⟨m, -, hbody⟩ := hjump.piece h'
    have hstopped := hbody.patchHere (by rw [htest.cursor]; omega)
    have hbreak := hstopped.trans (.instr hstopped.sound endLine .break)
    exact ⟨_, by omega, hbreak.patchHere (by rw [hop.cursor]; omega)⟩

/-- A counting loop. The step is written in front of the test when the test is there already; the first round
jumps over it. -/
theorem countingLoop {fStart fStep : Ledger → Ledger} {gStart gStep : Emitter → Emitter}
    {leastStart leastStep : Nat} (hstart : Keeps leastStart gStart fStart) (h : Keeps 1 g f)
    (hstep : Keeps leastStep gStep fStep) (h' : Keeps least' g' f') (line testLine bodyLine endLine : Nat) :
    Keeps 1 (fun e =>
        let e := e.op line .loop
        let breakHole := e.cursor
        let e := e.placeholder line
        let continueHole := e.cursor
        let e := gStart (e.placeholder line)
        let startHole := e.cursor + 1
        let e := e.jump testLine .jmp
        let stepStart := e.cursor
        let e := g e
        let testEnd := e.cursor
        let e := gStep (e.seek stepStart)
        let stepSize := e.cursor - stepStart
        let e := e.seek (testEnd + stepSize)
        let stopHole := e.cursor + 1
        let e := g' (e.jump bodyLine .jmpFalse)
        let e := (e.patch stopHole e.cursor).1
        let (e, grown) := e.patch startHole (stepStart + stepSize)
        let e := (e.patch continueHole (grown.moved stepStart)).1.instr endLine .break
        (e.patch breakHole e.cursor).1)
      fun t =>
        let t := t.op line .loop
        let breakHole := t.emitter.cursor
        let t := t.placeholder line
        let continueHole := t.emitter.cursor
        let t := fStart (t.placeholder line)
        let startHole := t.emitter.cursor + 1
        let t := t.jump testLine .jmp
        let stepStart := t.emitter.cursor
        let t := f ((t.hold .stepStart).hold .testStart)
        let testEnd := t.emitter.cursor
        let t := t.hold .testEnd
        let t := ((t.seek stepStart (t.place .stepStart)).release .stepStart).hold .stepStart
        let t := fStep t
        let stepSize := t.emitter.cursor - stepStart
        let t := (t.seek (testEnd + stepSize) (t.place .testEnd)).release .testEnd
        let stopHole := t.emitter.cursor + 1
        let t := f' (t.jump bodyLine .jmpFalse)
        let t := (t.patch stopHole t.emitter.cursor t.here).1
        let (t, grown) := t.patch startHole (stepStart + stepSize) (t.place .testStart)
        let t := (t.release .testStart).patch continueHole (grown.moved stepStart) (t.place .stepStart)
        let t := (t.1.release .stepStart).instr endLine .break
        (t.patch breakHole t.emitter.cursor t.here).1 where
  emitter t := by simp [hstart.emitter, h.emitter, hstep.emitter, h'.emitter]
  drafts {t} ht := by
    have hop : Drafts t (t.op line .loop) 1 [] [] := .write ht line [Op.loop.toByte]
    have hopen := hop.trans (.placeholder hop.sound line (strict_op t line .loop))
    have hboth := hopen.trans (.placeholder hopen.sound line ((strict_op t line .loop).placeholder line))
    obtain ⟨a, -, hbegun⟩ := hboth.piece hstart
    obtain ⟨n, hn, hround⟩ := hbegun.rounds (by rw [hopen.cursor]; omega) h hstep h' testLine bodyLine
    have hbreak := hround.trans (.instr hround.sound endLine .break)
    exact ⟨_, by omega, hbreak.patchHere (by rw [hop.cursor]; omega)⟩

end Keeps

/-! ## Every construct -/

theorem keeps_instrs (line : Nat) (i : Instr) (is : List Instr) :
    Keeps 1 (·.instrs line (i :: is)) (·.instrs line (i :: is)) := by
  induction is generalizing i with
  | nil => exact .instr line i
  | cons j is ih => exact (Keeps.instr line i).andThen (ih j)

theorem keeps_fetch (get : Option Nat) : Keeps 0 (Code.fetch get) (fetch get) := by
  cases get with
  | none => exact .nothing
  | some line => exact (Keeps.instr line .get).mono (Nat.zero_le _)

theorem keeps_declare (name : Name) (line : Nat) : Keeps 1 (Code.declare name line) (declare name line) :=
  keeps_instrs line _ _

theorem keeps_reference (name : Name) (line : Nat) :
    Keeps 1 (Code.reference name line) (reference name line) :=
  keeps_instrs line _ _

theorem keeps_setArgs (params : List (Name × Nat)) (index : Nat) :
    Keeps 0 (Code.setArgs params index) (setArgs params index) := by
  induction params generalizing index with
  | nil => exact .nothing
  | cons param params ih =>
    exact ((Keeps.instr param.2 (.setArg index param.1)).andThen (ih (index + 1))).mono (Nat.zero_le _)

/-- A function with a name is declared first, and assigned in the end. -/
theorem keeps_named {f : Ledger → Ledger} {g : Emitter → Emitter} (h : Keeps 1 g f) (name : Option Name)
    (line endLine : Nat) :
    Keeps 1 (fun e =>
        let e := match name with
          | some name => Code.reference name line (Code.declare name line e)
          | none => e
        let e := g e
        match name with
        | some _ => e.instr endLine (.expr .assign)
        | none => e)
      fun t =>
        let t := match name with
          | some name => reference name line (declare name line t)
          | none => t
        let t := f t
        match name with
        | some _ => t.instr endLine (.expr .assign)
        | none => t := by
  cases name with
  | none => exact h
  | some name =>
    exact (((keeps_declare name line).andThen (keeps_reference name line)).andThen h).thenInstr endLine
      (.expr .assign)

mutual

theorem keeps_expr : ∀ e : Expr, Keeps 1 (Code.ofExpr e) (ofExpr e)
  | .literal l line => (Keeps.instr line (Literal.push l)).since
  | .variable name line get => ((keeps_reference name line).andThen (keeps_fetch get)).since
  | .paren inner => (keeps_expr inner).since
  | .member object name line get =>
    (((keeps_expr object).andThen (keeps_instrs line (.pushStr name) [.swap])).andThen
      (keeps_fetch get)).since
  | .index object key line get =>
    ((((keeps_expr object).andThen (keeps_expr key)).thenInstr line .swap).andThen (keeps_fetch get)).since
  | .call callee line args closeLine =>
    ((((keeps_expr callee).thenInstr line .args).andThen (keeps_exprs args)).thenInstr closeLine .call).since
  | .unary op inner line => ((keeps_expr inner).thenInstr line (.expr op)).since
  | .binary op left right line =>
    (((keeps_expr left).andThen (keeps_expr right)).thenInstr line (.expr op)).since
  | .both left right line =>
    ((keeps_expr left).andThen
      (((Keeps.instr line .drop).andThen (keeps_expr right)).jumpOver line .jmpNeutralFalse)).since
  | .either left right line =>
    ((keeps_expr left).andThen
      (((Keeps.instr line .drop).andThen (keeps_expr right)).jumpOver line .jmpNeutralTrue)).since
  | .conditional test yes no line colonLine =>
    ((keeps_expr test).andThen ((keeps_expr yes).choose
      ((Keeps.instr colonLine .drop).andThen (keeps_expr no)) line colonLine)).since
  | .assign op target value line =>
    (((keeps_expr target).andThen (keeps_expr value)).thenInstr line (.expr op)).since
  | .function name line paramsLine params code endLine =>
    (keeps_named ((((Keeps.instr paramsLine .newScope).andThen (keeps_setArgs params 0)).andThen
      (keeps_body code) |>.thenInstr endLine .return).function line endLine) name line endLine).since
  | .object line all => ((Keeps.instr line .pushObj).andThen (keeps_entries all)).since
  | .array line all => ((Keeps.instr line .pushArray).andThen (keeps_elements all)).since

theorem keeps_exprs : ∀ args : Exprs, Keeps 0 (Code.ofExprs args) (ofExprs args)
  | .nil => Keeps.nothing.since
  | .cons first rest => (((keeps_expr first).mono (Nat.zero_le _)).andThen (keeps_exprs rest)).since

theorem keeps_entries : ∀ all : Entries, Keeps 0 (Code.ofEntries all) (ofEntries all)
  | .nil => Keeps.nothing.since
  | .cons key keyLine value line rest =>
    (((((keeps_instrs keyLine .dup [.pushStr key, .swap]).andThen (keeps_expr value)).andThen
      (keeps_instrs line (.expr .assign) [.drop])).andThen (keeps_entries rest)).mono (Nat.zero_le _)).since

theorem keeps_elements : ∀ all : Elements, Keeps 0 (Code.ofElements all) (ofElements all)
  | .nil => Keeps.nothing.since
  | .cons startLine value line rest =>
    (((((Keeps.instr startLine .dup).andThen (keeps_expr value)).thenInstr line .append).andThen
      (keeps_elements rest)).mono (Nat.zero_le _)).since

theorem keeps_stmt : ∀ s : Stmt, Keeps 1 (Code.ofStmt s) (ofStmt s)
  | .empty line => (Keeps.instr line .pushUndef).since
  | .declare first rest => ((keeps_declarator first).andThen (keeps_declarators rest)).since
  | .block line code endLine =>
    (((Keeps.instr line .newScope).andThen (keeps_body code)).thenInstr endLine .delScope).since
  | .returnNone endLine => (keeps_instrs endLine .pushUndef [.setRetVal, .return]).since
  | .returnValue value endLine =>
    ((keeps_expr value).andThen (keeps_instrs endLine .setRetVal [.return])).since
  | .break line => (keeps_instrs line .pushUndef [.break]).since
  | .continue line => (Keeps.instr line .continue).since
  | .exprs first rest => ((keeps_expr first).andThen (keeps_commas rest)).since
  | .ifThen test line yes => ((keeps_expr test).andThen ((keeps_stmt yes).jumpOver line .jmpFalse)).since
  | .ifElse test line yes elseLine no =>
    ((keeps_expr test).andThen ((keeps_stmt yes).choose
      ((Keeps.instr elseLine .drop).andThen (keeps_stmt no)) line elseLine)).since
  | .while line test bodyLine code endLine => by
    have hnext := keeps_instrs endLine .drop [.continue]
    exact (((Keeps.instr line .newScope).andThen ((keeps_expr test).loop
      ((keeps_loopBody code).andThen hnext) line bodyLine endLine)).thenInstr endLine .delScope).since
  | .for line start testLine test step bodyLine code endLine => by
    have hnext := keeps_instrs endLine .drop [.continue]
    exact (((Keeps.instr line .newScope).andThen (Keeps.countingLoop
      ((keeps_forStart start).thenInstr testLine .drop) (keeps_clause test .pushTrue)
      ((keeps_clause step .pushUndef).thenInstr bodyLine .drop)
      ((keeps_loopBody code).andThen hnext) line testLine bodyLine endLine)).thenInstr endLine .delScope).since
  | .forIn line declared name nameLine object bodyLine code endLine => by
    have hdeclare : Keeps 0 (fun e => if declared then Code.declare name nameLine e else e)
        fun t => if declared then declare name nameLine t else t := by
      cases declared
      · exact .nothing
      · exact (keeps_declare name nameLine).mono (Nat.zero_le _)
    have hnext := keeps_instrs endLine .drop [.continue]
    have hloop := (keeps_instrs bodyLine .forInNext [.dup]).loop ((keeps_loopBody code).andThen hnext)
      bodyLine bodyLine endLine
    have hend := keeps_instrs endLine .drop [.drop, .drop, .drop, .pushUndef, .delScope]
    exact (((((Keeps.instr line .newScope).andThen hdeclare).andThen
      ((Keeps.instr nameLine (.pushStr name)).andThen (keeps_expr object))).andThen
      ((Keeps.instr bodyLine .pushUndef).andThen hloop)).andThen hend).since

theorem keeps_declarator : ∀ d : Declarator, Keeps 1 (Code.ofDeclarator d) (ofDeclarator d)
  | .plain name line endLine => ((keeps_declare name line).thenInstr endLine .pushUndef).since
  | .init name line valueLine value endLine =>
    ((((keeps_declare name line).andThen (keeps_reference name valueLine)).andThen
      (keeps_expr value)).thenInstr endLine (.expr .assign)).since

theorem keeps_declarators : ∀ ds : Declarators, Keeps 0 (Code.ofDeclarators ds) (ofDeclarators ds)
  | .nil => Keeps.nothing.since
  | .cons commaLine d rest =>
    ((((Keeps.instr commaLine .drop).andThen (keeps_declarator d)).andThen
      (keeps_declarators rest)).mono (Nat.zero_le _)).since

theorem keeps_commas : ∀ cs : Commas, Keeps 0 (Code.ofCommas cs) (ofCommas cs)
  | .nil => Keeps.nothing.since
  | .cons commaLine next rest =>
    ((((Keeps.instr commaLine .drop).andThen (keeps_expr next)).andThen (keeps_commas rest)).mono
      (Nat.zero_le _)).since

theorem keeps_body : ∀ code : Body, Keeps 1 (Code.ofBody code) (ofBody code)
  | .none line => (Keeps.instr line .pushUndef).since
  | .some first rest => ((keeps_stmt first).andThen (keeps_stmts rest)).since

theorem keeps_stmts : ∀ ss : Stmts, Keeps 0 (Code.ofStmts ss) (ofStmts ss)
  | .nil => Keeps.nothing.since
  | .cons line next rest =>
    ((((Keeps.instr line .drop).andThen (keeps_stmt next)).andThen (keeps_stmts rest)).mono
      (Nat.zero_le _)).since

theorem keeps_loopBody : ∀ b : LoopBody, Keeps 1 (Code.ofLoopBody b) (ofLoopBody b)
  | .braces code => (keeps_body code).since
  | .single s => (keeps_stmt s).since

theorem keeps_forStart : ∀ start : ForStart, Keeps 1 (Code.ofForStart start) (ofForStart start)
  | .none line => (Keeps.instr line .pushUndef).since
  | .declare first rest => ((keeps_declarator first).andThen (keeps_declarators rest)).since
  | .expr start => (keeps_expr start).since

theorem keeps_clause : ∀ (c : Clause) (absent : Instr), Keeps 1 (Code.ofClause c absent) (ofClause c absent)
  | .none line, absent => (Keeps.instr line absent).since
  | .expr inner, _ => (keeps_expr inner).since

end

/-- Compiling a program keeps everything that is in flight in order, at every width. Whenever bytes come in, no
finished distance spans the place where they do, open placeholders end in front of it, and a position that is
used is where it should be; whatever was finished is read from the code as the distance to its instruction;
and every construct ends at the end of what it wrote. What is written is what the compiler writes, and in
the end nothing is in flight. -/
theorem distances_stay_whole (s : Source.Script) {width : Nat} (h : width ≤ Emitter.maxWidth) :
    (ofScript s width).met ∧ (ofScript s width).emitter = Code.ofScript s width ∧
      (ofScript s width).holes = [] ∧ (ofScript s width).places = [] ∧
      (ofScript s width).emitter.cursor = (ofScript s width).emitter.code.size ∧
      ∀ span ∈ (ofScript s width).spans, span.Reads (ofScript s width).emitter.code := by
  have hscript := (keeps_body s.body).thenInstr s.endLine .exit
  obtain ⟨n, -, hdone⟩ := hscript.drafts (sound_empty h)
  refine ⟨hdone.sound.met, hscript.emitter _, hdone.holes, hdone.places, ?_,
    readable_of_inscribed hdone.sound.inscribed⟩
  have hsize : (ofScript s width).emitter.code.size + 0 = 0 + (ofScript s width).emitter.cursor :=
    hdone.frame.size_eq (Nat.le_refl _) hdone.sound.cursor_le
  omega

/-- A loop without anything in it, `for (;;) ;`. -/
def endless : Source.Script :=
  ⟨.some (.for 1 (.none 1) 1 (.none 1) (.none 1) 1 (.single (.empty 1)) 1) .nil, 1⟩

/-- The two operands of a loop share a position when placeholders are empty. -/
theorem distances_stay_whole_emptyPlaceholders :
    0 ≤ Emitter.maxWidth ∧ (ofScript endless 0).met ∧
      (ofScript endless 0).emitter = Code.ofScript endless 0 ∧
      (ofScript endless 0).holes = [] ∧ (ofScript endless 0).places = [] ∧
      (ofScript endless 0).emitter.cursor = (ofScript endless 0).emitter.code.size ∧
      ∀ span ∈ (ofScript endless 0).spans, span.Reads (ofScript endless 0).emitter.code :=
  ⟨by decide, distances_stay_whole endless (by decide)⟩

end Ledger

end ScriptEngine.Code
