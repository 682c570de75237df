import Lz4.Frame.Session

/-!
# Runs of the frame decoder

A run is what a caller does with a context from the first call for a frame on: calls, each of
which presents again the input that the calls before it have not consumed, and queries for the
parameters of the frame.  It goes on as long as the calls return a positive hint.

The caller chooses sizes and addresses, as long as its buffers do not overlap what the context
uses (`Buffers`).  The decoder needs a little more (`Layout`): an output buffer that starts at the
very end of the context's own buffer is taken for its continuation (`Abuts`).  A run is therefore
taken under rules, and the results are about the rules that exclude this.
-/

namespace Lz4.Lz4f

open FlatMemory Machine

variable {c : DecompressCall} {f : Frame} {dict : List UInt8} {D : Int} {after : List UInt8}
  {s : Session} {m : Mem} {usingDict : Bool}

/-! ## What a caller may do -/

/-- Buffers of a call that overlap neither each other nor what the context uses. -/
structure Buffers (c : DecompressCall) (B : Owned) (blockSize : Nat) (Kept : Int → Prop) :
    Prop where
  tmpIn_pos : 0 < B.tmpIn
  tmpOut_pos : 0 < B.tmpOut
  blocks_apart : B.tmpIn + (blockSize + 4 : Nat) ≤ B.tmpOut ∨ B.tmpOut + B.size ≤ B.tmpIn
  dst_nonneg : 0 ≤ c.dst
  dst_null : c.dst = 0 → c.dstSize = 0
  dst_tmpIn : c.dst + c.dstSize ≤ B.tmpIn ∨ B.tmpIn + (blockSize + 4 : Nat) ≤ c.dst
  dst_tmpOut : c.dst + c.dstSize ≤ B.tmpOut ∨ B.tmpOut + B.size ≤ c.dst
  src_pos : c.srcSize = 0 ∨ 0 < c.src
  src_dst : c.srcSize = 0 ∨ c.src + c.srcSize ≤ c.dst ∨ c.dst + c.dstSize ≤ c.src
  src_tmpIn : c.srcSize = 0 ∨ c.src + c.srcSize ≤ B.tmpIn ∨
    B.tmpIn + (blockSize + 4 : Nat) ≤ c.src
  src_tmpOut : c.srcSize = 0 ∨ c.src + c.srcSize ≤ B.tmpOut ∨ B.tmpOut + B.size ≤ c.src
  kept_pos : ∀ a, Kept a → 0 < a
  kept_dst : ∀ a, Kept a → a < c.dst ∨ c.dst + c.dstSize ≤ a
  kept_tmpIn : ∀ a, Kept a → a < B.tmpIn ∨ B.tmpIn + (blockSize + 4 : Nat) ≤ a
  kept_tmpOut : ∀ a, Kept a → a < B.tmpOut ∨ B.tmpOut + B.size ≤ a

/-- The output buffer starts where the context's own buffer ends. -/
def Abuts (f : Frame) (s : Session) (c : DecompressCall) : Prop :=
  c.dst = (s.dctx.blocks f c).tmpOut + (s.dctx.blocks f c).size

/-- What the caller presents to a call: it has left alone what it has to, and the input goes on
where the last call has stopped. -/
structure Presents (f : Frame) (after : List UInt8) (s : Session) (c : DecompressCall) (m : Mem) :
    Prop where
  untouched : Untouched f s m
  buffers : Buffers c (s.dctx.blocks f c) f.blockSize s.kept
  input : m.Holds c.src (((f.bytes ++ after).drop s.taken).take c.srcSize)
  supply : s.taken + c.srcSize ≤ (f.bytes ++ after).length

theorem Buffers.layout {B : Owned} {blockSize : Nat} {Kept : Int → Prop}
    (h : Buffers c B blockSize Kept) (hgap : c.dst ≠ B.tmpOut + B.size) :
    Layout c B blockSize Kept := by
  refine ⟨h.tmpIn_pos, h.tmpOut_pos, h.blocks_apart, h.dst_nonneg, h.dst_null, h.dst_tmpIn, ?_,
    h.src_pos, h.src_dst, h.src_tmpIn, h.src_tmpOut, h.kept_pos, h.kept_dst, h.kept_tmpIn,
    h.kept_tmpOut⟩
  rcases h.dst_tmpOut with hbelow | habove
  · exact Or.inl hbelow
  · exact Or.inr (lt_of_le_of_ne habove (Ne.symm hgap))

theorem Presents.offers (presents : Presents f after s c m) (hgap : ¬ Abuts f s c) :
    Offers f after s c m :=
  ⟨presents.untouched, presents.buffers.layout hgap, presents.input, presents.supply⟩

/-- The function that decodes: `LZ4F_decompress_usingDict` or `LZ4F_decompress`. -/
def decode (usingDict : Bool) (c : DecompressCall) (d : Dctx) (m : Mem) (dict : Int)
    (dictSize : Nat) : Option Outcome :=
  if usingDict then decompressUsingDict c d m dict dictSize else decompress c d m

/-- A move of the caller, with the answer. -/
inductive Event
  | call (c : DecompressCall) (o : Outcome)
  | query (srcSize : Nat) (q : Query)

/-- What a call has returned. -/
def Event.code? : Event → Option Code
  | .call _ o => some o.code
  | .query _ _ => none

/-- All calls so far have returned a positive hint. -/
def Going (past : List Event) : Prop :=
  ∀ code ∈ past.filterMap Event.code?, ∃ n, code = .ok (n + 1)

/-- The moves that a caller allows itself. -/
structure Rules where
  call : List Event → Session → DecompressCall → Prop
  query : Session → Prop

/-- The session before the first call for a frame. -/
def Session.start (d : Dctx) (m : Mem) (D : Int) (dictSize : Nat) : Session :=
  ⟨d, m, InDictionary D dictSize, 0, []⟩

/-- The runs under some rules. -/
inductive Run (usingDict : Bool) (rules : Rules) (f : Frame) (dict : List UInt8) (D : Int)
    (after : List UInt8) (start : Session) : List Event → Session → Prop
  | start : Run usingDict rules f dict D after start [] start
  | call {past : List Event} {s : Session} {c : DecompressCall} {m : Mem} {o : Outcome}
      (run : Run usingDict rules f dict D after start past s) (going : Going past)
      (presents : Presents f after s c m) (allowed : rules.call past s c)
      (answer : decode usingDict c s.dctx m D dict.length = some o) :
      Run usingDict rules f dict D after start (past ++ [.call c o]) (s.called c D dict.length o)
  | query {past : List Event} {s : Session} {m : Mem} {fastDecLoop : Bool}
      {tmpInBlock tmpOutBlock srcBuffer : Int} {srcSize : Nat} {q : Query}
      (run : Run usingDict rules f dict D after start past s) (going : Going past)
      (untouched : Untouched f s m)
      (input : m.Holds srcBuffer (((f.bytes ++ after).drop s.taken).take srcSize))
      (allowed : rules.query s)
      (answer : getFrameInfo fastDecLoop tmpInBlock tmpOutBlock s.dctx m srcBuffer srcSize =
        some q) :
      Run usingDict rules f dict D after start (past ++ [.query srcSize q]) (s.queried q)

theorem going_nil : Going [] := by
  intro code hcode
  cases hcode

theorem going_call {past : List Event} {o : Outcome} :
    Going (past ++ [.call c o]) ↔ Going past ∧ ∃ n, o.code = .ok (n + 1) := by
  unfold Going
  rw [List.filterMap_append]
  constructor
  · intro h
    exact ⟨fun code hcode => h code (List.mem_append_left _ hcode),
      h _ (List.mem_append_right _ (List.mem_singleton.2 rfl))⟩
  · rintro ⟨hpast, hlast⟩ code hcode
    rcases List.mem_append.1 hcode with hold | hnew
    · exact hpast code hold
    · rw [List.mem_singleton.1 hnew]
      exact hlast

theorem going_query {past : List Event} {srcSize : Nat} {q : Query} :
    Going (past ++ [.query srcSize q]) ↔ Going past := by
  unfold Going
  simp [Event.code?]

/-! ## Where a run is -/

/-- The frame is over. -/
structure Over (f : Frame) (s : Session) : Prop where
  idle : Idle s.dctx
  taken : s.taken = f.bytes.length
  output : s.output = f.content
  sizeMatches : f.SizeMatches

/-- Whether one of the calls has asked to skip the checksums. -/
def Skips : List Event → Bool
  | [] => false
  | .call c _ :: rest => c.skipChecksums || Skips rest
  | .query _ _ :: rest => Skips rest

theorem skips_append (xs ys : List Event) : Skips (xs ++ ys) = (Skips xs || Skips ys) := by
  induction xs with
  | nil => rfl
  | cons x xs ih =>
    cases x with
    | call c o =>
      rw [List.cons_append, Skips, Skips, ih, Bool.or_assoc]
    | query srcSize q =>
      rw [List.cons_append, Skips, Skips, ih]

/-- A session in the middle of the frame. -/
structure Amid (usingDict : Bool) (f : Frame) (dict : List UInt8) (D : Int) (after : List UInt8)
    (past : List Event) (s : Session) (place : Place) : Prop where
  rests : Rests f dict D after s place
  going : Going past
  plain : usingDict = false → s.dctx.load D dict.length = s.dctx
  skip : usingDict = false → s.dctx.skipChecksum = Skips past

/-- Where a run can be: in the middle of the frame, at its end, or at an error. -/
inductive Status (usingDict : Bool) (f : Frame) (dict : List UInt8) (D : Int)
    (after : List UInt8) (past : List Event) (s : Session) : Prop
  | amid {place : Place} (amid : Amid usingDict f dict D after past s place)
  | finished {before : List Event} {c : DecompressCall} {o : Outcome} (going : Going before)
      (past_eq : past = before ++ [.call c o]) (code : o.code = .ok 0) (finished : Over f s)
  | failed {before : List Event} {c : DecompressCall} {o : Outcome} {e : FrameError} {skip : Bool}
      (going : Going before) (past_eq : past = before ++ [.call c o]) (code : o.code = .error e)
      (faults : f.Faults skip e) (skip_eq : usingDict = false → skip = Skips past)

section

variable {past : List Event} {place : Place}

/-- Both functions run the state machine on the context with its dictionary. -/
theorem Amid.decode_eq (amid : Amid usingDict f dict D after past s place) :
    decode usingDict c s.dctx m D dict.length = decompress c (s.dctx.load D dict.length) m := by
  cases usingDict with
  | true => exact decompressUsingDict_eq _ _ _ _ _
  | false =>
    rw [amid.plain rfl]
    rfl

/-- Whoever is in the middle of a frame has something left to read. -/
theorem Rests.taken_lt (rests : Rests f dict D after s place) : s.taken < f.bytes.length := by
  have hsum := congrArg List.length rests.flow
  have hpos := rests.unread_pos
  rw [List.length_append, List.length_drop, List.length_append] at hsum
  omega

/-- What has been delivered and what is owed make up the content. -/
theorem At.content_eq {O B : Owned} {Still : Int → Prop} {d : Dctx} {output : List UInt8}
    (h : At f dict D O B Still d m output place) : f.content = output ++ f.owed place := by
  obtain ⟨-, starting, howed, -⟩ | ⟨-, underway, -⟩ := h.phase
  · rw [starting.past_eq, howed]
    rfl
  · exact underway.content

theorem Rests.content_eq (rests : Rests f dict D after s place) :
    f.content = s.output ++ f.owed place := rests.at_.content_eq

/-- A call that goes on has used up its input or its room. -/
theorem Amid.exhausts (amid : Amid usingDict f dict D after past s place) (sound : f.Sound dict)
    (presents : Presents f after s c m) (hgap : ¬ Abuts f s c) {o : Outcome}
    (answer : decode usingDict c s.dctx m D dict.length = some o) {n : Nat}
    (hcode : o.code = .ok (n + 1)) : o.srcRead = c.srcSize ∨ o.dstWritten = c.dstSize := by
  obtain ⟨o', reply, hrun, -, hyields⟩ := amid.rests.call sound (presents.offers hgap)
  have hsame : o' = o := Option.some.inj ((amid.decode_eq.trans hrun).symm.trans answer)
  rw [hsame] at hyields
  cases hyields with
  | stop _ hstops hadvances =>
    have hread := hadvances.srcRead
    have hwritten := hadvances.dstWritten
    rcases hstops.exhausted with havail | hroom
    · exact Or.inl (by omega)
    · exact Or.inr (by omega)
  | finished hzero =>
    rw [hzero] at hcode
    cases hcode
  | fail herror =>
    rw [herror] at hcode
    cases hcode
  | idle _ hread _ hsize => exact Or.inl (hread.trans hsize.symm)

/-- **One call**: it returns, and the run is still in the middle of the frame, at its end, or at
an error. -/
theorem Amid.call (amid : Amid usingDict f dict D after past s place) (sound : f.Sound dict)
    (presents : Presents f after s c m) (hgap : ¬ Abuts f s c) :
    ∃ o, decode usingDict c s.dctx m D dict.length = some o ∧
      Status usingDict f dict D after (past ++ [.call c o]) (s.called c D dict.length o) := by
  have offers := presents.offers hgap
  obtain ⟨o, reply, hrun, -, hyields⟩ := amid.rests.call sound offers
  have hskip (past' : List Event) (hlast : past' = past ++ [.call c o]) (hplain : usingDict = false) :
      (s.dctx.skipChecksum || c.skipChecksums) = Skips past' := by
    rw [hlast, skips_append, amid.skip hplain, Skips, Skips, Bool.or_false]
  refine ⟨o, amid.decode_eq.trans hrun, ?_⟩
  cases hyields with
  | @stop r hint outs hcode hstops hadvances hat hskips =>
    have hpos := hstops.hint_pos
    refine .amid ⟨amid.rests.after_stop sound offers hstops hadvances hat, ?_,
      fun _ => hat.load_eq, fun hplain => hskips.trans (hskip _ rfl hplain)⟩
    exact going_call.2 ⟨amid.going, hint - 1, by rw [hcode, Nat.sub_add_cancel hpos]⟩
  | @finished avail room outs hcode hadvances hidle hall hmatches =>
    refine .finished amid.going rfl hcode ⟨hidle, ?_, ?_, hmatches⟩
    · obtain ⟨-, hsum⟩ := amid.rests.flow_advances (r := ⟨.finished, avail, room⟩) hadvances.flow (by
        have hread := hadvances.srcRead
        have hsupply := offers.supply
        rw [amid.rests.flow, List.length_drop]
        omega)
      exact hsum
    · have houts : o.mem.bytes c.dst o.dstWritten = outs := by
        rw [← hadvances.outs_length]
        exact hadvances.output
      unfold Session.called
      rw [houts]
      exact hall
  | fail hcode hread hwritten hfaults =>
    exact .failed amid.going rfl hcode hfaults (hskip _ rfl)
  | idle hcode hread hwritten hsize hplace hat hstill hskips =>
    refine .amid ⟨amid.rests.after_idle sound offers hread hwritten hat hstill, ?_,
      fun _ => hat.load_eq, fun hplain => hskips.trans (hskip _ rfl hplain)⟩
    exact going_call.2 ⟨amid.going, 6, hcode⟩

end

/-! ## Whole runs -/

/-- Rules under which no output buffer starts at the end of the context's own, and under which
queries are made on valid frames only, and not between the header and the first block. -/
structure Rules.Safe (rules : Rules) (usingDict : Bool) (f : Frame) (dict : List UInt8) :
    Prop where
  call : ∀ past s c, rules.call past s c → ¬ Abuts f s c
  query : ∀ s, rules.query s → usingDict = true ∧ f.Valid dict ∧ s.dctx.dStage ≠ .init

section

variable {rules : Rules} {d : Dctx} {past : List Event}

theorem amid_start (idle : Idle d) (hdict : m.Holds D dict)
    (hplain : usingDict = false → D = 0 ∧ dict = []) :
    Amid usingDict f dict D after [] (Session.start d m D dict.length) (.header 0) := by
  refine ⟨rests_start idle hdict, going_nil, fun h => ?_, fun _ => idle.skipChecksum⟩
  obtain ⟨hD, hnil⟩ := hplain h
  have hearly : d.dStage.index ≤ Stage.init.index := by
    rw [idle.stage]
    decide
  unfold Session.start Dctx.load
  rw [if_pos hearly, hD, hnil, ← idle.dict]
  have hsize : ([] : List UInt8).length = d.dictSize := idle.dictSize.symm
  rw [hsize]

/-- A run that goes on is in the middle of the frame. -/
theorem Status.amid_of_going (status : Status usingDict f dict D after past s)
    (going : Going past) : ∃ place, Amid usingDict f dict D after past s place := by
  cases status with
  | amid amid => exact ⟨_, amid⟩
  | finished _ past_eq code =>
    rw [past_eq, going_call, code] at going
    obtain ⟨-, n, hn⟩ := going
    cases hn
  | failed _ past_eq code =>
    rw [past_eq, going_call, code] at going
    obtain ⟨-, n, hn⟩ := going
    cases hn

/-- **A run is always in the middle of the frame, at its end, or at an error.** -/
theorem Run.status (run : Run usingDict rules f dict D after (Session.start d m D dict.length)
      past s) (sound : f.Sound dict) (safe : rules.Safe usingDict f dict) (idle : Idle d)
    (hdict : m.Holds D dict) (hplain : usingDict = false → D = 0 ∧ dict = []) :
    Status usingDict f dict D after past s := by
  induction run with
  | start => exact .amid (amid_start idle hdict hplain)
  | @call past s c m o _ going presents allowed answer ih =>
    obtain ⟨place, amid⟩ := ih.amid_of_going going
    obtain ⟨o', hanswer, hstatus⟩ := amid.call sound presents (safe.call past s c allowed)
    rw [Option.some.inj (answer.symm.trans hanswer)]
    exact hstatus
  | @query past s m fastDecLoop tmpInBlock tmpOutBlock srcBuffer srcSize q _ going untouched input
      allowed answer ih =>
      obtain ⟨husing, valid, hinit⟩ := safe.query s allowed
      obtain ⟨place, amid⟩ := ih.amid_of_going going
      obtain ⟨q', place', hanswer, hrests⟩ := amid.rests.query valid untouched hinit input
        fastDecLoop tmpInBlock tmpOutBlock
      rw [Option.some.inj (answer.symm.trans hanswer)]
      refine .amid ⟨hrests, going_query.2 going, fun h => ?_, fun h => ?_⟩
      · exact absurd (husing.symm.trans h) (by decide)
      · exact absurd (husing.symm.trans h) (by decide)

/-- **A call ends the frame** if it gets the rest of the input and more room than is needed. -/
theorem Amid.ends {place : Place} (amid : Amid usingDict f dict D after past s place)
    (sound : f.Sound dict) (presents : Presents f after s c m) (hgap : ¬ Abuts f s c)
    (hall : f.bytes.length ≤ s.taken + c.srcSize)
    (hroom : f.content.length < s.output.length + c.dstSize) {o : Outcome}
    (answer : decode usingDict c s.dctx m D dict.length = some o) :
    ¬ Going (past ++ [.call c o]) := by
  intro going
  obtain ⟨-, n, hcode⟩ := going_call.1 going
  obtain ⟨o', hanswer, hstatus⟩ := amid.call sound presents hgap
  rw [Option.some.inj (hanswer.symm.trans answer)] at hstatus
  obtain ⟨place', hamid⟩ := hstatus.amid_of_going going
  have htaken : s.taken + o.srcRead < f.bytes.length := hamid.rests.taken_lt
  have hcontent := congrArg List.length hamid.rests.content_eq
  unfold Session.called at hcontent
  rw [List.length_append, List.length_append, Mem.length_bytes] at hcontent
  rcases amid.exhausts sound presents hgap answer hcode with hread | hwritten
  · omega
  · omega

end

/-! ## One call for the whole frame -/

/-- A call on a new context, with room for one byte more than the content. -/
def wholeCall (f : Frame) : DecompressCall :=
  { dst := f.blockSize + f.bufferNeeded + 6
    dstSize := f.content.length + 1
    src := f.blockSize + f.bufferNeeded + f.content.length + 7
    srcSize := f.bytes.length
    tmpInBlock := 1
    tmpOutBlock := f.blockSize + 5 }

/-- The frame where the call expects it. -/
def wholeMem (f : Frame) : Mem := Mem.store (fun _ => 0) (wholeCall f).src f.bytes

/-- Rules without queries, under which no output buffer starts at the end of the context's own. -/
def spaced (f : Frame) : Rules := ⟨fun _ s c => ¬ Abuts f s c, fun _ => False⟩

theorem spaced_safe (usingDict : Bool) (f : Frame) (dict : List UInt8) :
    (spaced f).Safe usingDict f dict :=
  ⟨fun _ _ _ h => h, fun _ h => h.elim⟩

theorem idle_new : Idle {} := ⟨rfl, rfl, rfl, rfl, rfl, rfl⟩

theorem blocks_new (f : Frame) (hsize : 0 < f.blockSize) (c : DecompressCall) :
    Dctx.blocks {} f c = ⟨c.tmpInBlock, c.tmpOutBlock, f.bufferNeeded⟩ := by
  have hneeded : 0 < f.bufferNeeded := by
    unfold Frame.bufferNeeded
    omega
  exact if_pos ⟨by decide, hneeded⟩

theorem presents_whole (f : Frame) (hsize : 0 < f.blockSize) :
    Presents f [] (Session.start {} (wholeMem f) 0 0) (wholeCall f) (wholeMem f) := by
  have hblocks : (Session.start {} (wholeMem f) 0 0).dctx.blocks f (wholeCall f) =
      ⟨1, f.blockSize + 5, f.bufferNeeded⟩ := blocks_new f hsize _
  have hkept : ∀ a, ¬ (Session.start {} (wholeMem f) 0 0).kept a := by
    rintro a ⟨hlow, hhigh⟩
    omega
  refine ⟨fun a _ => rfl, ?_, ?_, ?_⟩
  · rw [hblocks]
    refine ⟨?_, ?_, Or.inl ?_, ?_, fun h => ?_, Or.inr ?_, Or.inr ?_, Or.inr ?_, Or.inr (Or.inr ?_),
      Or.inr (Or.inr ?_), Or.inr (Or.inr ?_), fun a ha => (hkept a ha).elim,
      fun a ha => (hkept a ha).elim, fun a ha => (hkept a ha).elim, fun a ha => (hkept a ha).elim⟩
    all_goals dsimp only [wholeCall] at *
    all_goals omega
  · have hall : (f.bytes ++ []).take f.bytes.length = f.bytes := by
      rw [List.append_nil, List.take_length]
    change (wholeMem f).Holds (wholeCall f).src ((f.bytes ++ []).take f.bytes.length)
    rw [hall]
    exact Mem.holds_store _ _ _
  · change 0 + f.bytes.length ≤ (f.bytes ++ []).length
    rw [List.append_nil]
    omega

/-- **Every sound frame is run to its end by one call** of a new context. -/
theorem exists_run_whole {f : Frame} (sound : f.Sound []) :
    ∃ past s, Run false (spaced f) f [] 0 [] (Session.start {} (wholeMem f) 0 0) past s ∧
      ¬ Going past := by
  have hsize : 0 < f.blockSize := by
    have hlow := sound.blockSize_le.1
    have hkb64 : kb64 = 65536 := rfl
    omega
  have hpresents := presents_whole f hsize
  have hgap : ¬ Abuts f (Session.start {} (wholeMem f) 0 0) (wholeCall f) := by
    intro habuts
    have hblocks : (Session.start {} (wholeMem f) 0 0).dctx.blocks f (wholeCall f) =
        ⟨1, f.blockSize + 5, f.bufferNeeded⟩ := blocks_new f hsize _
    unfold Abuts at habuts
    rw [hblocks] at habuts
    dsimp only [wholeCall] at habuts
    omega
  have hstart : Amid false f [] 0 [] [] (Session.start {} (wholeMem f) 0 0) (.header 0) :=
    amid_start idle_new (Mem.holds_nil _ _) fun _ => ⟨rfl, rfl⟩
  obtain ⟨o, answer, -⟩ := hstart.call sound hpresents hgap
  refine ⟨_, _, .call .start going_nil hpresents hgap answer, ?_⟩
  refine hstart.ends sound hpresents hgap ?_ ?_ answer
  · change f.bytes.length ≤ 0 + f.bytes.length
    omega
  · change f.content.length < 0 + (f.content.length + 1)
    omega

end Lz4.Lz4f
