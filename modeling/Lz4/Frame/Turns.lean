import Lz4.Frame.Reader

/-!
# What a reader answers

A call of the abstract reader ends (`serve_replies`): it stops because the input or the room is
exhausted, with a hint that is positive and, with one exception, not larger than what remains of
the frame; it fails, and then a field of the frame does not have the value it should have; or it
is behind the frame and returns zero.

The exception is `Overasks`: the hint that is given in the middle of a compressed block counts
the checksum field behind the block twice, and behind the last block there may be nothing but the
end mark.
-/

namespace Lz4.Lz4f

open FlatMemory Machine

namespace Frame

variable (f : Frame)

/-- The places that a reader of the frame can be at. -/
def Proper : Place → Prop
  | .header got => got < f.desc.size
  | .ready => True
  | .blockHeader rest got => rest <:+ f.pieces ∧ got < 4
  | .raw p rest done => p :: rest <:+ f.pieces ∧ p.raw = true ∧ done ≤ p.data.length
  | .rawChecksum p rest got =>
    p :: rest <:+ f.pieces ∧ p.raw = true ∧ f.desc.blockChecksum = true ∧ got < 4
  | .compressed p rest none => p :: rest <:+ f.pieces ∧ p.raw = false
  | .compressed p rest (some got) =>
    p :: rest <:+ f.pieces ∧ p.raw = false ∧ got < p.data.length + f.footerSize
  | .flush p rest done => p :: rest <:+ f.pieces ∧ done ≤ p.content.length
  | .suffix got => got < 4
  | .finished => False

/-- A place where the hint is larger than what remains. -/
def Overasks : Place → Prop
  | .compressed _ rest (some _) =>
    rest = [] ∧ f.desc.blockChecksum = true ∧ f.desc.contentChecksum = false
  | _ => False

instance (place : Place) : Decidable (f.Overasks place) := by
  unfold Overasks
  split <;> infer_instance

/-- A reader that has stopped in the middle of the frame. -/
structure Stops (r : Reader) (hint : Nat) : Prop where
  proper : f.Proper r.place
  begun : r.place ≠ .ready
  hint_pos : 0 < hint
  exhausted : r.avail = 0 ∨ r.room = 0
  unread_pos : 0 < (f.unread r.place).length
  hint_le : ¬ f.Overasks r.place → hint ≤ (f.unread r.place).length

/-- The reasons for an error. -/
inductive Faults (skip : Bool) : FrameError → Prop
  | block {p : Piece} (mem : p ∈ f.pieces) (flag : f.desc.blockChecksum = true)
      (bad : p.checksum ≠ xxh32 p.data 0) (checked : p.raw = true → skip = false) :
      Faults skip .blockChecksum_invalid
  | size (bad : ¬ f.SizeMatches) : Faults skip .frameSize_wrong
  | content (flag : f.desc.contentChecksum = true) (bad : f.checksum ≠ xxh32 f.content 0)
      (checked : skip = false) : Faults skip .contentChecksum_invalid

/-- What a call that starts as `start` can end with. -/
def Replies (skip : Bool) (start : Reader) : Reply → Prop
  | .stop r hint => f.Stops r hint ∨ r.place = .finished ∧ hint = 0 ∧ f.SizeMatches
  | .fail e => f.Faults skip e
  | .idle r => r = start ∧ r.place = .header 0 ∧ r.avail = 0

end Frame

/-- The turns that a place may need without taking a byte. -/
def Place.rank : Place → Nat
  | .raw _ _ _ => 2
  | .rawChecksum _ _ _ => 1
  | .compressed _ _ none => 3
  | .compressed _ _ (some _) => 2
  | .flush _ _ _ => 1
  | _ => 0

/-- The measure of a call. -/
def Reader.variant (r : Reader) : Nat := 4 * r.avail + r.place.rank

namespace Frame

variable {f : Frame} {skip : Bool}

theorem four_le_body (f : Frame) (rest : List Piece) : 4 ≤ (f.body rest).length := by
  cases rest with
  | nil =>
    rw [body, List.length_append, length_leBytes]
    omega
  | cons p rest =>
    rw [body, List.length_append, p.length_header]
    omega

/-- A turn that goes on to a proper place with a smaller measure, or ends as a call may end. -/
def Proceeds (f : Frame) (skip : Bool) (start : Reader) (n : Nat) (x : Step Reader Reply) : Prop :=
  x.Ends (fun r => f.Proper r.place ∧ r.place ≠ .header 0) (f.Replies skip start) Reader.variant n

/-! ## Turns, place by place -/

variable {rest : List Piece} {avail room n : Nat}

theorem enterBlock_proceeds (skip : Bool) (start : Reader) (place : Place)
    (hrest : rest <:+ f.pieces) (hn : 4 * avail + 3 < n) :
    f.Proceeds skip start n (f.enterBlock ⟨place, avail, room⟩ rest) := by
  cases rest with
  | nil => exact ⟨⟨show 0 < 4 by omega, nofun⟩, show 4 * avail + 0 < n by omega⟩
  | cons p rest =>
    rw [enterBlock]
    cases hraw : p.raw with
    | true =>
      exact ⟨⟨⟨hrest, hraw, Nat.zero_le _⟩, nofun⟩, show 4 * avail + 2 < n by omega⟩
    | false =>
      by_cases hstop : room = 0 ∨ avail = 0
      · have hbody := f.four_le_body rest
        rw [if_pos hstop]
        refine Or.inl ⟨⟨hrest, hraw⟩, nofun, by omega, hstop.symm, ?_, fun _ => ?_⟩
        all_goals
          rw [unread, Option.getD_none, List.drop_zero, List.length_append, List.length_append,
            f.length_footer]
          omega
      · rw [if_neg hstop]
        exact ⟨⟨⟨hrest, hraw⟩, nofun⟩, show 4 * avail + 3 < n by omega⟩

variable {got : Nat}

theorem turnBlockHeader_proceeds (skip : Bool) (start : Reader) (place : Place)
    (hrest : rest <:+ f.pieces) (hgot : got < 4) (hn : 4 * avail ≤ n) :
    f.Proceeds skip start n (f.turnBlockHeader ⟨place, avail, room⟩ rest got) := by
  unfold turnBlockHeader
  dsimp only
  by_cases hmore : got + min (4 - got) avail < 4
  · have hbody := f.four_le_body rest
    rw [if_pos hmore]
    refine Or.inl ⟨⟨hrest, hmore⟩, nofun, by omega, Or.inl ?_, ?_, fun _ => ?_⟩
    · dsimp only
      omega
    all_goals
      rw [unread, List.length_drop]
      omega
  · rw [if_neg hmore]
    exact enterBlock_proceeds skip _ _ hrest (by omega)

theorem turnHeader_proceeds (skip : Bool) (hgot : got < f.desc.size) (hn : 4 * avail ≤ n) :
    f.Proceeds skip ⟨.header got, avail, room⟩ n (f.turnHeader ⟨.header got, avail, room⟩ got) := by
  have hmin := f.desc.le_size
  have hnineteen : maxFHSize = 19 := rfl
  have hseven : minFHSize = 7 := rfl
  unfold turnHeader
  by_cases hdirect : got = 0 ∧ maxFHSize ≤ avail
  · rw [if_pos hdirect]
    exact ⟨⟨trivial, nofun⟩, show 4 * (avail - f.desc.size) + 0 < n by omega⟩
  · rw [if_neg hdirect]
    by_cases hnone : got = 0 ∧ avail = 0
    · rw [if_pos hnone]
      exact ⟨rfl, congrArg Place.header hnone.1, hnone.2⟩
    · rw [if_neg hnone]
      dsimp only
      obtain ⟨target, htarget⟩ :
          ∃ target, target = if got < minFHSize then minFHSize else f.desc.size := ⟨_, rfl⟩
      have hrange : got < target ∧ target ≤ f.desc.size := by
        rw [htarget]
        split <;> omega
      rw [← htarget]
      by_cases hmore : got + min (target - got) avail < target
      · have hbody := f.four_le_body f.pieces
        have hfour : bhSize = 4 := rfl
        have hlength := f.desc.length_header
        rw [if_pos hmore]
        refine Or.inl ⟨show _ < _ by omega, nofun, by omega, Or.inl ?_, ?_, fun _ => ?_⟩
        · dsimp only
          omega
        all_goals
          rw [unread, List.length_append, List.length_drop]
          omega
      · rw [if_neg hmore]
        by_cases hpart : target < f.desc.size
        · rw [if_pos hpart]
          refine ⟨⟨show _ < _ by omega, fun h => ?_⟩,
            show 4 * (avail - min (target - got) avail) + 0 < n by omega⟩
          have hzero := Place.header.inj h
          omega
        · rw [if_neg hpart]
          exact ⟨⟨trivial, nofun⟩, show 4 * (avail - min (target - got) avail) + 0 < n by omega⟩

variable {p : Piece}

theorem tail_suffix (h : p :: rest <:+ f.pieces) : rest <:+ f.pieces :=
  (List.suffix_cons p rest).trans h

variable {done : Nat}

theorem turnRaw_proceeds (skip : Bool) (start : Reader) (hproper : f.Proper (.raw p rest done))
    (hn : 4 * avail + 2 ≤ n) :
    f.Proceeds skip start n (f.turnRaw ⟨.raw p rest done, avail, room⟩ p rest done) := by
  obtain ⟨hrest, hraw, hdone⟩ := hproper
  unfold turnRaw
  by_cases hall : min (p.data.length - done) (min avail room) = p.data.length - done
  · rw [if_pos hall]
    cases hflag : f.desc.blockChecksum with
    | true =>
      exact ⟨⟨⟨hrest, hraw, hflag, by omega⟩, nofun⟩,
        show 4 * (avail - min (p.data.length - done) (min avail room)) + 1 < n by omega⟩
    | false =>
      exact ⟨⟨⟨tail_suffix hrest, by omega⟩, nofun⟩,
        show 4 * (avail - min (p.data.length - done) (min avail room)) + 0 < n by omega⟩
  · have hbody := f.four_le_body rest
    have hfour : bhSize = 4 := rfl
    rw [if_neg hall]
    refine Or.inl ⟨⟨hrest, hraw, by omega⟩, nofun, by omega, ?_, ?_, fun _ => ?_⟩
    · dsimp only
      omega
    all_goals
      rw [unread, List.length_append, List.length_append, List.length_drop, f.length_footer]
      omega

theorem turnRawChecksum_proceeds (skip : Bool) (start : Reader)
    (hproper : f.Proper (.rawChecksum p rest got)) (hn : 4 * avail + 1 ≤ n) :
    f.Proceeds skip start n (turnRawChecksum skip ⟨.rawChecksum p rest got, avail, room⟩ p rest
      got) := by
  obtain ⟨hrest, hraw, hflag, hgot⟩ := hproper
  unfold turnRawChecksum
  by_cases hmore : got + min (4 - got) avail < 4
  · have hbody := f.four_le_body rest
    rw [if_pos hmore]
    refine Or.inl ⟨⟨hrest, hraw, hflag, hmore⟩, nofun, by omega, Or.inl ?_, ?_, fun _ => ?_⟩
    · dsimp only
      omega
    all_goals
      rw [unread, List.length_append]
      omega
  · rw [if_neg hmore]
    by_cases hbad : ¬ skip ∧ p.checksum ≠ xxh32 p.data 0
    · rw [if_pos hbad]
      exact .block (hrest.mem List.mem_cons_self) hflag hbad.2 fun _ => by simpa using hbad.1
    · rw [if_neg hbad]
      exact ⟨⟨⟨tail_suffix hrest, by omega⟩, nofun⟩,
        show 4 * (avail - min (4 - got) avail) + 0 < n by omega⟩

theorem turnFlush_proceeds (skip : Bool) (start : Reader) (place : Place)
    (hrest : p :: rest <:+ f.pieces) (hdone : done ≤ p.content.length) (hn : 4 * avail < n) :
    f.Proceeds skip start n (turnFlush ⟨place, avail, room⟩ p rest done) := by
  unfold turnFlush
  by_cases hall : done + min (p.content.length - done) room = p.content.length
  · rw [if_pos hall]
    exact ⟨⟨⟨tail_suffix hrest, by omega⟩, nofun⟩, show 4 * avail + 0 < n by omega⟩
  · have hbody := f.four_le_body rest
    rw [if_neg hall]
    refine Or.inl ⟨⟨hrest, by omega⟩, nofun, by decide, Or.inr ?_, ?_, fun _ => ?_⟩
    · dsimp only
      omega
    all_goals
      rw [unread]
      first | exact hbody | omega

/-- What follows a block is long enough for the checksum that is counted twice. -/
theorem footer_le_body (h : ¬ f.Overasks (.compressed p rest (some got))) :
    f.footerSize + 4 ≤ (f.body rest).length := by
  cases rest with
  | nil =>
    rw [body, List.length_append, length_leBytes, suffix, footerSize]
    cases hblock : f.desc.blockChecksum with
    | false => simp
    | true =>
      cases hcontent : f.desc.contentChecksum with
      | true => simp
      | false => exact absurd ⟨rfl, hblock, hcontent⟩ h
  | cons q rest =>
    rw [body, List.length_append, List.length_append, List.length_append, q.length_header,
      f.length_footer]
    omega

theorem turnStored_proceeds (skip : Bool) (start : Reader) (place : Place)
    (hrest : p :: rest <:+ f.pieces) (hraw : p.raw = false)
    (hgot : got ≤ p.data.length + f.footerSize) (hn : 4 * avail < n) :
    f.Proceeds skip start n (f.turnStored ⟨place, avail, room⟩ p rest got) := by
  unfold turnStored
  dsimp only
  by_cases hmore : got + min (p.data.length + f.footerSize - got) avail <
      p.data.length + f.footerSize
  · have hbody := f.four_le_body rest
    have hfour : bhSize = 4 := rfl
    rw [if_pos hmore]
    refine Or.inl ⟨⟨hrest, hraw, hmore⟩, nofun, by omega, Or.inl ?_, ?_, fun hasks => ?_⟩
    · dsimp only
      omega
    · rw [unread, List.length_append]
      omega
    · rw [unread, Option.getD_some, List.length_append, List.length_drop, List.length_append,
        f.length_footer]
      have hfollows := footer_le_body hasks
      omega
  · rw [if_neg hmore]
    by_cases hbad : f.desc.blockChecksum ∧ p.checksum ≠ xxh32 p.data 0
    · rw [if_pos hbad]
      exact .block (hrest.mem List.mem_cons_self) hbad.1 hbad.2 fun htrue => by simp [hraw] at htrue
    · rw [if_neg hbad]
      exact turnFlush_proceeds skip _ _ hrest (Nat.zero_le _) (by omega)

theorem turnSuffix_proceeds (start : Reader) (place : Place) (hgot : got < 4) :
    f.Proceeds skip start n (f.turnSuffix skip ⟨place, avail, room⟩ got) := by
  unfold turnSuffix
  by_cases hmatches : f.SizeMatches
  · rw [if_neg (not_not.2 hmatches)]
    by_cases hflag : f.desc.contentChecksum = true
    · rw [if_neg (not_not.2 hflag)]
      dsimp only
      by_cases hmore : got + min (4 - got) avail < 4
      · have hlength : f.suffix.length = 4 := by
          rw [suffix, if_pos hflag, length_leBytes]
        rw [if_pos hmore]
        refine Or.inl ⟨hmore, nofun, by omega, Or.inl ?_, ?_, fun _ => ?_⟩
        · dsimp only
          omega
        all_goals
          rw [unread, List.length_drop]
          omega
      · rw [if_neg hmore]
        by_cases hbad : ¬ skip ∧ f.checksum ≠ xxh32 f.content 0
        · rw [if_pos hbad]
          exact .content hflag hbad.2 (by simpa using hbad.1)
        · rw [if_neg hbad]
          exact Or.inr ⟨rfl, rfl, hmatches⟩
    · rw [if_pos hflag]
      exact Or.inr ⟨rfl, rfl, hmatches⟩
  · rw [if_pos hmatches]
    exact .size hmatches

/-- **Every turn proceeds.** -/
theorem turn_proceeds (skip : Bool) {r : Reader} (hproper : f.Proper r.place) :
    f.Proceeds skip r r.variant (f.turn skip r) := by
  obtain ⟨place, avail, room⟩ := r
  unfold turn
  cases place with
  | header got => exact turnHeader_proceeds skip hproper (Nat.le_add_right _ _)
  | ready =>
    exact turnBlockHeader_proceeds skip _ _ (List.suffix_refl _) (by omega) (Nat.le_add_right _ _)
  | blockHeader rest got =>
    exact turnBlockHeader_proceeds skip _ _ hproper.1 hproper.2 (Nat.le_add_right _ _)
  | raw p rest done => exact turnRaw_proceeds skip _ hproper (Nat.le_refl _)
  | rawChecksum p rest got => exact turnRawChecksum_proceeds skip _ hproper (Nat.le_refl _)
  | compressed p rest got =>
    cases got with
    | some got =>
      obtain ⟨hrest, hraw, hgot⟩ := hproper
      exact turnStored_proceeds skip _ _ hrest hraw (Nat.le_of_lt hgot)
        (show 4 * avail < 4 * avail + 2 by omega)
    | none =>
      obtain ⟨hrest, hraw⟩ := hproper
      dsimp only [turnCompressed]
      by_cases hshort : avail < p.data.length + f.footerSize
      · rw [if_pos hshort]
        exact ⟨⟨⟨hrest, hraw, by omega⟩, nofun⟩, show 4 * avail + 2 < 4 * avail + 3 by omega⟩
      · rw [if_neg hshort]
        exact turnStored_proceeds skip _ _ hrest hraw (Nat.zero_le _)
          (show 4 * avail < 4 * avail + 3 by omega)
  | flush p rest done =>
    exact turnFlush_proceeds skip _ _ hproper.1 hproper.2 (show 4 * avail < 4 * avail + 1 by omega)
  | suffix got => exact turnSuffix_proceeds _ _ hproper
  | finished => exact hproper.elim

/-- **Every call of the reader ends, and as a call may end.** -/
theorem serve_replies (f : Frame) (skip : Bool) {start : Reader} (hproper : f.Proper start.place) :
    ∃ reply, f.serve skip start = some reply ∧ f.Replies skip start reply := by
  have hstep (r : Reader)
      (h : f.Proper r.place ∧ (r = start ∨ r.place ≠ .header 0)) :
      ∃ x, some (f.turn skip r) = some x ∧
        x.Ends (fun r => f.Proper r.place ∧ (r = start ∨ r.place ≠ .header 0))
          (f.Replies skip start) Reader.variant r.variant := by
    refine ⟨_, rfl, ?_⟩
    have hproceeds := turn_proceeds skip h.1
    revert hproceeds
    cases f.turn skip r with
    | next r' =>
      rintro ⟨⟨hproper, hplace⟩, hvariant⟩
      exact ⟨⟨hproper, Or.inr hplace⟩, hvariant⟩
    | done reply =>
      intro hreplies
      cases reply with
      | stop r' hint => exact hreplies
      | fail e => exact hreplies
      | idle r' =>
        obtain ⟨rfl, hplace, havail⟩ := hreplies
        exact ⟨h.2.resolve_right fun h => h hplace, hplace, havail⟩
  refine iterate_ends _ Reader.variant hstep ⟨hproper, Or.inl rfl⟩ ?_
  have hrank : start.place.rank ≤ 3 := by
    unfold Place.rank
    split <;> omega
  unfold Reader.variant
  omega

end Frame

end Lz4.Lz4f
