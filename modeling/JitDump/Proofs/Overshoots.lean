import JitDump.Proofs.Accounts
import JitDump.Proofs.Lookahead

/-!
# What is refused for its size

An operation may not ask for more than a buffer may hold, but it is asked about
that only where the buffer does not hold enough already.  A read brings more than
was asked for, so a buffer may come to hold more than may be asked for, though
never as much as a read more.  A requirement between these two is refused or
granted by what has been read ahead, and one beyond both is always refused.
-/

namespace JitDump

open Cursor

/-! ## How much a buffer may come to hold -/

namespace Cursor

/-- The buffer holds less than a read more than may be asked for. -/
def Contained (c : Cursor) : Prop := c.buffer.length < maxBuffer + refillChunk

theorem contained_ofSource (s : Source) : (ofSource s).Contained :=
  Nat.add_pos_left (by decide : 0 < maxBuffer) _

end Cursor

namespace Reading

variable {α β : Type} {x : Reading α} {f : α → Reading β} {c : Cursor} {n : Nat}

/-- Whatever a reading answers, it leaves a contained buffer where it finds one. -/
def Contains (x : Reading α) : Prop :=
  ∀ c : Cursor, c.Contained → match x c with | .ok _ c' | .error _ c' => c'.Contained

theorem Contains.of_ok {a : α} {c' : Cursor} (h : Contains x) (hc : c.Contained)
    (hx : x c = .ok a c') : c'.Contained := by
  have hcontained := h c hc
  rwa [hx] at hcontained

theorem Contains.of_error {e : Failure} {c' : Cursor} (h : Contains x) (hc : c.Contained)
    (hx : x c = .error e c') : c'.Contained := by
  have hcontained := h c hc
  rwa [hx] at hcontained

theorem contains_pure (a : α) : Contains (pure a) := fun _ h ↦ h

theorem contains_fail (fault : Fault) : Contains (fail fault : Reading α) := fun _ h ↦ h

theorem contains_peek : Contains peek := fun _ h ↦ h

theorem Contains.bind (h : Contains x) (h' : ∀ a, Contains (f a)) : Contains (x >>= f) := by
  intro c hc
  cases hx : x c with
  | ok a c' =>
    rw [Fallible.bind_of_ok hx]
    exact h' a c' (h.of_ok hc hx)
  | error e c' =>
    rw [Fallible.bind_of_error hx]
    exact h.of_error hc hx

theorem Contains.map (h : Contains x) (g : α → β) : Contains (g <$> x) :=
  h.bind fun a ↦ contains_pure (g a)

theorem contains_demand (test : Cursor → Bool) (fault : Fault) :
    Contains (demand test fault) := by
  intro c hc
  rw [demand]
  cases test c <;> exact hc

theorem contains_take (n : Nat) : Contains (take n) := by
  intro c hc
  have hle : (c.buffer.drop n).length ≤ c.buffer.length := by
    rw [List.length_drop]
    exact Nat.sub_le _ _
  exact Nat.lt_of_le_of_lt hle hc

/-- What is asked for may be had, and a read may bring more. -/
theorem contains_fill (n : Nat) : Contains (fill n) := by
  intro c hc
  rcases Nat.lt_or_ge maxBuffer n with hn | hn
  · rw [fill_of_lt hn]
    exact hc
  by_cases he : c.ended = true
  · rw [fill_of_ended hn he]
    exact hc
  obtain ⟨buffer, position, ended, source⟩ := c
  obtain rfl : ended = false := Bool.eq_false_iff.2 he
  have hle := source.length_pullFrom_le refillChunk [] (n - buffer.length)
  rw [fill_eq_filled hn]
  generalize source.pullFrom refillChunk [] (n - buffer.length) = p at hle
  obtain ⟨bytes, outcome, rest⟩ := p
  have hcontained : (buffer ++ bytes).length < maxBuffer + refillChunk := by
    have hbuffer : buffer.length < maxBuffer + refillChunk := hc
    rw [List.flatten_nil, List.length_nil, Nat.zero_add] at hle
    dsimp only at hle
    rw [List.length_append]
    split at hle <;> omega
  cases outcome <;> exact hcontained

theorem contains_need (n : Nat) : Contains (need n) := by
  rcases Nat.lt_or_ge maxBuffer n with hn | hn
  · rw [need_eq_demand hn]
    exact contains_demand _ _
  · rw [need_eq hn]
    exact (contains_fill n).bind fun _ ↦ contains_demand _ _

theorem contains_want (n : Nat) : Contains (want n) := by
  rcases Nat.lt_or_ge maxBuffer n with hn | hn
  · rw [want_eq_demand hn]
    exact contains_demand _ _
  · rw [want_eq hn]
    exact contains_fill n

theorem contains_block (n : Nat) : Contains (block n) := by
  rw [block_eq]
  exact (contains_need n).bind fun _ ↦ contains_take n

theorem contains_skip (n : Nat) : Contains (skip n) := by
  rw [skip_eq]
  exact (contains_block n).bind fun _ ↦ contains_pure ()

theorem contains_takeByte : Contains takeByte := by
  rintro ⟨buffer, position, ended, source⟩ hc
  cases buffer with
  | nil => exact hc
  | cons b rest => exact Nat.lt_of_succ_lt hc

theorem contains_byte : Contains byte := by
  rw [byte_eq]
  exact (contains_need 1).bind fun _ ↦ contains_takeByte

theorem contains_word16 (order : ByteOrder) : Contains (word16 order) := by
  rw [word16_eq]
  exact (contains_block 2).map _

theorem contains_word32 (order : ByteOrder) : Contains (word32 order) := by
  refine (contains_block 4).bind fun u ↦ ?_
  split
  · exact contains_pure _
  · exact contains_fail _

theorem contains_groupsFrom (done : Bytes) : Contains (groupsFrom done) := by
  intro c hc
  fun_induction groupsFrom done c with
  | case1 done c b c' hb _ _ ih => exact ih (contains_byte.of_ok hc hb)
  | case2 done c b c' hb _ _ => exact contains_byte.of_ok hc hb
  | case3 done c e c' hb => exact contains_byte.of_error hc hb

end Reading

namespace Cursor

theorem Call.contains (k : Call) : Reading.Contains k.reading := by
  cases k with
  | need n => exact Reading.contains_need n
  | want n => exact Reading.contains_want n
  | skip n => exact Reading.contains_skip n
  | peek => exact Reading.contains_peek
  | byte => exact Reading.contains_byte
  | word16 order => exact Reading.contains_word16 order
  | word32 order => exact Reading.contains_word32 order
  | block n => exact Reading.contains_block n
  | varint => exact (Reading.contains_groupsFrom []).map _
  | taggedVarint => exact (Reading.contains_groupsFrom []).map _

theorem Contained.apply {c : Cursor} (h : c.Contained) (k : Call) : (k.apply c).Contained := by
  have hcontained := k.contains c h
  unfold Call.apply
  generalize k.reading c = r at hcontained
  cases r with
  | ok a c' | error e c' => exact hcontained

/-- Any calls keep a buffer contained. -/
theorem Contained.after {c : Cursor} (h : c.Contained) (calls : List Call) :
    (c.after calls).Contained := by
  induction calls generalizing c with
  | nil => exact h
  | cons k calls ih => exact ih (h.apply k)

/-! ## Refusing and granting -/

/-- `n` bytes are refused for their number: nothing is done. -/
structure Refuses (c : Cursor) (n : Nat) : Prop where
  need : Reading.need n c = .error (c.failure (.bufferLimit n)) c
  skip : Reading.skip n c = .error (c.failure (.bufferLimit n)) c
  block : Reading.block n c = .error (c.failure (.bufferLimit n)) c

/-- `n` bytes are granted out of the buffer. -/
structure Grants (c : Cursor) (n : Nat) : Prop where
  need : Reading.need n c = .ok () c
  skip : Reading.skip n c =
    .ok () { c with buffer := c.buffer.drop n, position := c.position + n }
  block : Reading.block n c =
    .ok (c.buffer.take n) { c with buffer := c.buffer.drop n, position := c.position + n }

variable {c : Cursor} {n : Nat}

theorem refuses_of_lt (hn : maxBuffer < n) (h : c.buffer.length < n) : c.Refuses n := by
  have hneed : Reading.need n c = .error (c.failure (.bufferLimit n)) c := by
    rw [Reading.need_eq_demand hn, Reading.demand, if_neg (by simpa using h)]
  exact ⟨hneed, by rw [Reading.skip, hneed], by rw [Reading.block, hneed]⟩

theorem grants_of_le (h : n ≤ c.buffer.length) : c.Grants n := by
  have hneed : Reading.need n c = .ok () c := by
    rw [Reading.need, if_pos (by simpa using h)]
  refine ⟨hneed, by rw [Reading.skip, hneed], ?_⟩
  rw [Reading.block_eq, Fallible.bind_of_ok hneed]
  rfl

theorem Refuses.not_grants (h : c.Refuses n) : ¬ c.Grants n := by
  intro h'
  have hneed := h.need.symm.trans h'.need
  cases hneed

end Cursor

/-! ## How much may be granted -/

namespace Source

variable {limit n : Nat} {piece : Bytes}

theorem read_piece (hl : piece.length ≤ limit) (later : List Turn) (ending : Ending) :
    read limit ⟨.bytes piece :: later, ending⟩ = (.bytes piece, ⟨later, ending⟩) := by
  rw [read, List.drop_of_length_le hl]

/-- A piece that is no longer than a read comes at once. -/
theorem pullFrom_piece (hp : piece ≠ []) (hl : piece.length ≤ limit) (hn : n ≠ 0)
    (pieces : List Bytes) (later : List Turn) (ending : Ending) :
    pullFrom limit pieces n ⟨.bytes piece :: later, ending⟩ =
      pullFrom limit (piece :: pieces) (n - piece.length) ⟨later, ending⟩ := by
  obtain ⟨b, rest, rfl⟩ := List.exists_cons_of_ne_nil hp
  rw [pullFrom_eq, if_neg hn, read_piece hl]

/-- Pieces of one size come one by one. -/
theorem pullFrom_replicate (hp : piece ≠ []) (hl : piece.length ≤ limit) (k m : Nat)
    (pieces : List Bytes) (later : List Turn) (ending : Ending) :
    pullFrom limit pieces (k * piece.length + m)
        ⟨List.replicate k (.bytes piece) ++ later, ending⟩ =
      pullFrom limit (List.replicate k piece ++ pieces) m ⟨later, ending⟩ := by
  have hpos := List.length_pos_iff.2 hp
  induction k generalizing pieces with
  | zero =>
    rw [Nat.zero_mul, Nat.zero_add]
    rfl
  | succ k ih =>
    have hleft : (k + 1) * piece.length + m - piece.length = k * piece.length + m := by
      rw [Nat.succ_mul]
      omega
    have hn : (k + 1) * piece.length + m ≠ 0 := by
      rw [Nat.succ_mul]
      omega
    rw [List.replicate_succ, List.cons_append, pullFrom_piece hp hl hn, hleft, ih,
      List.replicate_succ', List.append_assoc, List.singleton_append]

/-- A source that hands out `k` times the same piece, and then as much as a read asks for. -/
def brimming (piece : Bytes) (k : Nat) : Source :=
  ⟨List.replicate k (.bytes piece) ++ [.bytes (List.replicate refillChunk 0)], .finished⟩

theorem length_pullFrom_brimming (hp : piece ≠ []) (hl : piece.length ≤ refillChunk) {k : Nat}
    (hlt : k * piece.length < n) (hle : n ≤ k * piece.length + refillChunk) :
    ((brimming piece k).pullFrom refillChunk [] n).outcome = .enough ∧
      ((brimming piece k).pullFrom refillChunk [] n).bytes.length =
        k * piece.length + refillChunk := by
  obtain ⟨m, rfl⟩ := Nat.exists_eq_add_of_lt hlt
  have hlast : List.replicate refillChunk (0 : UInt8) ≠ [] := by
    rw [ne_eq, List.replicate_eq_nil_iff]
    decide
  have hdone : m + 1 - (List.replicate refillChunk (0 : UInt8)).length = 0 := by
    rw [List.length_replicate]
    omega
  have hpull := pullFrom_replicate hp hl k (m + 1) [] [.bytes (List.replicate refillChunk 0)]
    .finished
  rw [pullFrom_piece hlast List.length_replicate.le (Nat.succ_ne_zero m), hdone,
    pullFrom_zero] at hpull
  rw [brimming, Nat.add_assoc, hpull]
  refine ⟨rfl, ?_⟩
  simp [Nat.add_comm]

end Source

namespace Cursor

variable {n k : Nat} {piece : Bytes}

/-- Where the pieces fall short of a requirement, the read behind them is in the buffer as well. -/
theorem need_brimming (hp : piece ≠ []) (hl : piece.length ≤ refillChunk)
    (hlt : k * piece.length < n) (hle : n ≤ k * piece.length + refillChunk) (hn : n ≤ maxBuffer) :
    ∃ c, Reading.need n (ofSource (.brimming piece k)) = .ok () c ∧
      c.buffer.length = k * piece.length + refillChunk := by
  obtain ⟨houtcome, hlength⟩ := Source.length_pullFrom_brimming hp hl hlt hle
  have hfill := Reading.fill_eq_filled hn [] 0 (.brimming piece k)
  rw [List.length_nil, Nat.sub_zero] at hfill
  generalize (Source.brimming piece k).pullFrom refillChunk [] n = p at hfill houtcome hlength
  obtain ⟨bytes, outcome, rest⟩ := p
  obtain rfl : outcome = .enough := houtcome
  replace hlength : bytes.length = k * piece.length + refillChunk := hlength
  refine ⟨⟨bytes, 0, false, rest⟩, ?_, hlength⟩
  rw [Reading.need_eq hn]
  refine (Fallible.bind_of_ok hfill).trans (if_pos ?_)
  exact (holds_eq _ _).trans (decide_eq_true (hlength ▸ hle))

/-- Behind a need for all that may be asked for, more may be granted. -/
theorem grants_after_brimming (hp : piece ≠ []) (hl : piece.length ≤ refillChunk)
    (hlt : k * piece.length < maxBuffer) (hle : maxBuffer ≤ k * piece.length + refillChunk)
    (h : n ≤ k * piece.length + refillChunk) :
    ((ofSource (.brimming piece k)).after [.need maxBuffer]).Grants n := by
  obtain ⟨c, hneed, hlength⟩ := need_brimming hp hl hlt hle (Nat.le_refl _)
  have hafter : (ofSource (.brimming piece k)).after [.need maxBuffer] = c := by
    simp only [after, List.foldl_cons, List.foldl_nil, Call.apply, Call.reading, hneed]
  rw [hafter]
  exact grants_of_le (hlength ▸ h)

/-- After any calls on any source the buffer holds less than a read more than may be asked for. A
requirement above the limit is refused, and nothing done, where the buffer holds less, and granted
where it does not. So what has been read ahead decides, unless the requirement exceeds the limit by
a read or more: such a one is always refused, and a smaller one is not. -/
theorem limit_refuses_unbuffered (hn : maxBuffer < n) :
    (∀ (s : Source) (calls : List Call),
      ((ofSource s).after calls).buffer.length < maxBuffer + refillChunk ∧
      (((ofSource s).after calls).buffer.length < n → ((ofSource s).after calls).Refuses n) ∧
      (n ≤ ((ofSource s).after calls).buffer.length → ((ofSource s).after calls).Grants n)) ∧
    ((∀ (s : Source) (calls : List Call), ((ofSource s).after calls).Refuses n) ↔
      maxBuffer + refillChunk ≤ n) := by
  have hcontained (s : Source) (calls : List Call) : ((ofSource s).after calls).Contained :=
    (contained_ofSource s).after calls
  refine ⟨fun s calls ↦ ⟨hcontained s calls, refuses_of_lt hn, grants_of_le⟩, fun h ↦ ?_,
    fun h s calls ↦ refuses_of_lt hn (Nat.lt_of_lt_of_le (hcontained s calls) h)⟩
  -- single bytes leave the last of those that may be asked for to a whole read
  by_contra hlt
  have hlast : (maxBuffer - 1) * [(0 : UInt8)].length = maxBuffer - 1 := Nat.mul_one _
  have hlimit : 0 < maxBuffer ∧ 0 < refillChunk := by decide
  have hgrants : ((ofSource (.brimming [0] (maxBuffer - 1))).after [.need maxBuffer]).Grants n :=
    grants_after_brimming (by decide) (by decide) (by omega) (by omega) (by omega)
  exact (h _ _).not_grants hgrants

/-- What exceeds the limit by a read is refused on any source. -/
theorem limit_refuses_whole_read :
    maxBuffer < maxBuffer + refillChunk ∧
      ∀ (s : Source) (calls : List Call),
        ((ofSource s).after calls).Refuses (maxBuffer + refillChunk) := by
  have hn : maxBuffer < maxBuffer + refillChunk := by decide
  exact ⟨hn, (limit_refuses_unbuffered hn).2.2 (Nat.le_refl _)⟩

/-- One byte more than the limit is granted behind a need for as many bytes as the limit, on a
source that hands out whole reads of zeros. -/
theorem not_limit_refuses :
    ¬ ∀ (s : Source) (calls : List Call) (n : Nat), maxBuffer < n →
      ((ofSource s).after calls).Refuses n := by
  intro h
  have hlength : (List.replicate refillChunk (0 : UInt8)).length = refillChunk :=
    List.length_replicate
  have hgrants : ((ofSource (.brimming (List.replicate refillChunk 0) 32767)).after
      [.need maxBuffer]).Grants (maxBuffer + 1) := by
    have hwhole : List.replicate refillChunk (0 : UInt8) ≠ [] := by
      rw [ne_eq, List.replicate_eq_nil_iff]
      decide
    apply grants_after_brimming hwhole hlength.le <;> rw [hlength] <;> decide
  exact (h _ _ _ (Nat.lt_succ_self _)).not_grants hgrants

end Cursor

end JitDump
