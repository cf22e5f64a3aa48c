import JitDump.Proofs.WireOrder

/-!
# Where a decode stops

A decode that fails does so in one operation, behind operations that all went
well.  `Point` is a place between two records; here are the places inside of one,
in front of a record and amid its objects, and `Stop` lists what may fail at which
of them.  What a failure tells is then asked of one operation at one place, and
what holds at every place is shown along the run that leads there.
-/

namespace JitDump

variable {α β σ : Type} {e : Failure}

/-! ## Failing -/

namespace Fallible

variable {x : Fallible σ α} {f : α → Fallible σ β} {s t : σ} {a : α}

/-- `x` fails from `s` with `e`, whatever it has done before. -/
def Fails (x : Fallible σ α) (s : σ) (e : Failure) : Prop := ∃ t, x s = .error e t

theorem not_fails_of_ok (h : x s = .ok a t) : ¬ Fails x s e := by
  rintro ⟨t', h'⟩
  rw [h] at h'
  cases h'

@[simp] theorem fails_pure_iff : Fails (pure a : Fallible σ α) s e ↔ False :=
  iff_false_intro (not_fails_of_ok rfl)

@[simp] theorem fails_failAt_iff {i : Nat} {fault : Fault} :
    Fails (failAt i fault : Fallible σ α) s e ↔ e = ⟨"", i, fault⟩ := by
  constructor
  · rintro ⟨t, ⟨⟩⟩
    rfl
  · rintro rfl
    exact ⟨s, rfl⟩

/-- A sequence of two operations fails with the first of them, or with the second one. -/
theorem fails_bind_iff :
    Fails (x >>= f) s e ↔ Fails x s e ∨ ∃ a r, x s = .ok a r ∧ Fails (f a) r e := by
  constructor
  · rintro ⟨t, h⟩
    cases hx : x s with
    | ok a r => exact .inr ⟨a, r, rfl, t, (bind_of_ok hx).symm.trans h⟩
    | error e' r =>
      rw [bind_of_error hx] at h
      cases h
      exact .inl ⟨_, hx⟩
  · rintro (⟨t, hx⟩ | ⟨a, r, hx, t, hf⟩)
    · exact ⟨t, bind_of_error hx⟩
    · exact ⟨t, (bind_of_ok hx).trans hf⟩

/-- What comes behind an operation that goes well decides. -/
theorem fails_bind_of_ok (h : x s = .ok a t) : Fails (x >>= f) s e ↔ Fails (f a) t e := by
  rw [Fails, bind_of_ok h]
  rfl

end Fallible

open Fallible

/-- A reading in a decode fails as it does alone. -/
theorem Decoding.fails_ofReading_iff {x : Reading α} {s : Container.Session} :
    Fails (ofReading x) s e ↔ Fails x s.cursor e := by
  constructor
  · rintro ⟨t, h⟩
    cases hx : x s.cursor with
    | ok a c =>
      rw [ofReading_eq_ok hx] at h
      cases h
    | error e' c =>
      rw [ofReading_eq_error hx] at h
      cases h
      exact ⟨c, hx⟩
  · rintro ⟨c, hx⟩
    exact ⟨_, ofReading_eq_error hx⟩

/-- A reading in front of the rest of a decode. -/
theorem Decoding.fails_read_iff {x : Reading α} {f : α → Decoding β} {s : Container.Session} :
    Fails (ofReading x >>= f) s e ↔ Fails x s.cursor e ∨
      ∃ a c, x s.cursor = .ok a c ∧ Fails (f a) { s with cursor := c } e := by
  rw [fails_bind_iff, fails_ofReading_iff]
  refine or_congr_right ?_
  constructor
  · rintro ⟨a, _, hx, hf⟩
    obtain ⟨c, hc, rfl⟩ := ofReading_eq_ok_iff.1 hx
    exact ⟨a, c, hc, hf⟩
  · rintro ⟨a, c, hc, hf⟩
    exact ⟨a, _, ofReading_eq_ok hc, hf⟩

namespace Container

variable {ctx : Context} {s t r : Session}

/-! ## Amid a pool -/

/-- From `s` the objects of a pool are read one by one, the first of the pool last, and bring their
owner to a depth. -/
inductive Objects (s : Session) : List (Constant Prototype) → Nat → Session → Prop
  | nil : Objects s [] 0 s
  | cons {pool : List (Constant Prototype)} {depth d : Nat} {t r : Session}
      {o : Constant Prototype} (h : Objects s pool depth t) (ho : object t = .ok (o, d) r) :
      Objects s (o :: pool) (max depth d) r

section Objects

variable {pool objects : List (Constant Prototype)} {depth d n : Nat}

/-- The objects behind those of a pool are those that `objectsFrom` has left. -/
theorem Objects.objectsFrom_eq (h : Objects s pool depth t) (k : Nat) :
    objectsFrom [] 0 (pool.length + k) s = objectsFrom pool depth k t := by
  induction h generalizing k with
  | nil => rw [List.length_nil, Nat.zero_add]
  | @cons pool depth d t r o _ ho ih =>
    calc objectsFrom [] 0 ((o :: pool).length + k) s
        = objectsFrom [] 0 (pool.length + (k + 1)) s := by
          rw [List.length_cons, Nat.add_assoc, Nat.add_comm 1 k]
      _ = objectsFrom pool depth (k + 1) t := ih (k + 1)
      _ = objectsFrom (o :: pool) (max depth d) k r := bind_of_ok ho

theorem Objects.of_objectsFrom_eq_ok (h : Objects s pool depth t)
    (hn : objectsFrom pool depth n t = .ok (objects, d) r) :
    Objects s objects d r ∧ objects.length = pool.length + n := by
  induction n generalizing pool depth t with
  | zero =>
    cases hn
    exact ⟨h, rfl⟩
  | succ n ih =>
    obtain ⟨_, _, ho, hn⟩ := bind_eq_ok.1 hn
    obtain ⟨hr, hl⟩ := ih (h.cons ho) hn
    refine ⟨hr, ?_⟩
    rw [hl, List.length_cons, Nat.succ_add_eq_add_succ]

theorem Objects.of_fails (h : Objects s pool depth t)
    (hn : Fails (objectsFrom pool depth n) t e) :
    ∃ pool' depth' t', Objects s pool' depth' t' ∧ pool'.length < pool.length + n ∧
      Fails object t' e := by
  induction n generalizing pool depth t with
  | zero => exact absurd hn fails_pure_iff.1
  | succ n ih =>
    rcases fails_bind_iff.1 hn with ho | ⟨_, _, ho, hn⟩
    · exact ⟨pool, depth, t, h, by omega, ho⟩
    · obtain ⟨pool', depth', t', h', hl, he⟩ := ih (h.cons ho) hn
      refine ⟨pool', depth', t', h', ?_, he⟩
      rwa [List.length_cons, Nat.succ_add_eq_add_succ] at hl

/-- A pool is its objects, one by one. -/
theorem objectsFrom_eq_ok_iff : objectsFrom [] 0 n s = .ok (pool, depth) t ↔
    Objects s pool depth t ∧ pool.length = n := by
  constructor
  · intro h
    obtain ⟨ho, hl⟩ := Objects.nil.of_objectsFrom_eq_ok h
    exact ⟨ho, by rw [hl, List.length_nil, Nat.zero_add]⟩
  · rintro ⟨h, rfl⟩
    exact h.objectsFrom_eq 0

/-- A pool fails with one of its objects. -/
theorem fails_objectsFrom_iff : Fails (objectsFrom [] 0 n) s e ↔
    ∃ pool depth t, Objects s pool depth t ∧ pool.length < n ∧ Fails object t e := by
  constructor
  · intro h
    obtain ⟨pool, depth, t, ho, hl, he⟩ := Objects.nil.of_fails h
    rw [List.length_nil, Nat.zero_add] at hl
    exact ⟨pool, depth, t, ho, hl, he⟩
  · rintro ⟨pool, depth, t, ho, hl, he⟩
    obtain ⟨k, rfl⟩ : ∃ k, n = pool.length + (k + 1) := ⟨n - pool.length - 1, by omega⟩
    rw [Fails, ho.objectsFrom_eq]
    exact fails_bind_iff.2 (.inl he)

end Objects

/-! ## Records and rounds -/

/-- A record is its front, its objects and its debug block. -/
theorem record_eq_ok_iff {p : Prototype} {d : Nat} : record ctx s = .ok (p, d) r ↔
    ∃ f c pool t debug c', front ctx s.cursor = .ok f c ∧
      Objects { s with cursor := c } pool d t ∧ pool.length = f.objectCount.toNat ∧
      debugInfo ctx.flags.order f t.cursor = .ok debug c' ∧
      p = f.prototype pool debug ctx.chunkName ∧
      r = { t with
        cursor := c'
        events := .pools f.numbers.length pool.length f.upvalues.length :: t.events } := by
  constructor
  · intro h
    obtain ⟨f, s₁, hf, h⟩ := bind_eq_ok.1 h
    obtain ⟨c, hf', rfl⟩ := Decoding.ofReading_eq_ok_iff.1 hf
    obtain ⟨⟨pool, depth⟩, t, ho, h⟩ := bind_eq_ok.1 h
    obtain ⟨_, _, hnote, h⟩ := bind_eq_ok.1 h
    cases hnote
    obtain ⟨debug, t₁, hd, h⟩ := bind_eq_ok.1 h
    obtain ⟨c', hd', rfl⟩ := Decoding.ofReading_eq_ok_iff.1 hd
    cases h
    obtain ⟨ho', hl⟩ := objectsFrom_eq_ok_iff.1 ho
    exact ⟨f, c, pool, t, debug, c', hf', ho', hl, hd', rfl, rfl⟩
  · rintro ⟨f, c, pool, t, debug, c', hf, ho, hl, hd, rfl, rfl⟩
    refine bind_eq_ok.2 ⟨f, _, Decoding.ofReading_eq_ok hf, ?_⟩
    refine bind_eq_ok.2 ⟨(pool, d), t, objectsFrom_eq_ok_iff.2 ⟨ho, hl⟩, ?_⟩
    refine bind_eq_ok.2 ⟨(), _, rfl, ?_⟩
    exact bind_eq_ok.2 ⟨debug, _, Decoding.ofReading_eq_ok hd, rfl⟩

/-- How a record fails: in its front, in one of its objects, or in its debug block. -/
inductive RecordStop (ctx : Context) (s : Session) (e : Failure) : Prop
  | front (h : Fails (front ctx) s.cursor e)
  | object {f : Front} {c : Cursor} {pool : List (Constant Prototype)} {depth : Nat} {t : Session}
      (hf : Container.front ctx s.cursor = .ok f c)
      (ho : Objects { s with cursor := c } pool depth t)
      (hl : pool.length < f.objectCount.toNat) (h : Fails Container.object t e)
  | debug {f : Front} {c : Cursor} {pool : List (Constant Prototype)} {depth : Nat} {t : Session}
      (hf : Container.front ctx s.cursor = .ok f c)
      (ho : Objects { s with cursor := c } pool depth t)
      (hl : pool.length = f.objectCount.toNat)
      (h : Fails (debugInfo ctx.flags.order f) t.cursor e)

theorem fails_record_iff : Fails (record ctx) s e ↔ RecordStop ctx s e := by
  constructor
  · intro h
    rcases Decoding.fails_read_iff.1 h with hf | ⟨f, c, hf, h⟩
    · exact .front hf
    rcases fails_bind_iff.1 h with ho | ⟨⟨pool, depth⟩, t, ho, h⟩
    · obtain ⟨pool, depth, t, ho, hl, he⟩ := fails_objectsFrom_iff.1 ho
      exact .object hf ho hl he
    obtain ⟨ho, hl⟩ := objectsFrom_eq_ok_iff.1 ho
    rcases Decoding.fails_read_iff.1 ((fails_bind_of_ok rfl).1 h) with hd | ⟨_, _, -, h⟩
    · exact .debug hf ho hl hd
    · exact absurd h fails_pure_iff.1
  · intro h
    cases h with
    | front hf => exact Decoding.fails_read_iff.2 (.inl hf)
    | object hf ho hl he =>
      refine Decoding.fails_read_iff.2 (.inr ⟨_, _, hf, fails_bind_iff.2 (.inl ?_)⟩)
      exact fails_objectsFrom_iff.2 ⟨_, _, _, ho, hl, he⟩
    | debug hf ho hl hd =>
      refine Decoding.fails_read_iff.2 (.inr ⟨_, _, hf, ?_⟩)
      refine (fails_bind_of_ok (objectsFrom_eq_ok_iff.2 ⟨ho, hl⟩)).2 ?_
      exact (fails_bind_of_ok rfl).2 (Decoding.fails_read_iff.2 (.inl hd))

/-- How a round fails: at the length of a record, in the record, or behind a record that is not as
long as was announced. -/
inductive RoundStop (ctx : Context) (s : Session) (e : Failure) : Prop
  | length (h : Fails nextLength s.cursor e)
  | record {c : Cursor} {n : Nat} (hl : nextLength s.cursor = .ok (some n) c)
      (h : RecordStop ctx { s with cursor := c } e)
  | mismatch {c : Cursor} {n : Nat} {r : Prototype × Nat} {t : Session}
      (hl : nextLength s.cursor = .ok (some n) c)
      (hr : Container.record ctx { s with cursor := c } = .ok r t)
      (hn : t.cursor.position - c.position ≠ n)
      (h : e = ⟨"", c.position, .lengthMismatch n (t.cursor.position - c.position)⟩)

theorem fails_nextRecord_iff : Fails (nextRecord ctx) s e ↔ RoundStop ctx s e := by
  constructor
  · intro h
    rcases Decoding.fails_read_iff.1 h with hl | ⟨n?, c, hl, h⟩
    · exact .length hl
    cases n? with
    | none => exact absurd h fails_pure_iff.1
    | some n =>
      rcases fails_bind_iff.1 ((fails_bind_of_ok rfl).1 h) with hr | ⟨p, t, hr, h⟩
      · exact .record hl (fails_record_iff.1 hr)
      have h := (fails_bind_of_ok rfl).1 h
      by_cases hn : t.cursor.position - c.position = n
      · simp only [if_pos hn] at h
        exact absurd ((fails_bind_of_ok rfl).1 h) fails_pure_iff.1
      · simp only [if_neg hn] at h
        exact .mismatch hl hr hn (fails_failAt_iff.1 h)
  · intro h
    cases h with
    | length hl => exact Decoding.fails_read_iff.2 (.inl hl)
    | record hl h =>
      refine Decoding.fails_read_iff.2 (.inr ⟨_, _, hl, (fails_bind_of_ok rfl).2 ?_⟩)
      exact fails_bind_iff.2 (.inl (fails_record_iff.2 h))
    | mismatch hl hr hn h =>
      refine Decoding.fails_read_iff.2 (.inr ⟨_, _, hl, (fails_bind_of_ok rfl).2 ?_⟩)
      refine (fails_bind_of_ok hr).2 ((fails_bind_of_ok rfl).2 ?_)
      simp only [if_neg hn]
      exact fails_failAt_iff.2 h

/-- `records` fails exactly where steps lead to a round that fails, if its rounds do not run out. -/
theorem fails_records_iff {n : Nat} (hn : s.cursor.pending.length < n) :
    Fails (records (nextRecord ctx) n) s e ↔
      ∃ ps t, Steps (nextRecord ctx) s ps t ∧ RoundStop ctx t e := by
  simp only [← fails_nextRecord_iff]
  constructor
  · rintro ⟨r, h⟩
    induction n generalizing s with
    | zero => omega
    | succ n ih =>
      rw [records_succ] at h
      cases hr : nextRecord ctx s with
      | error e' t =>
        rw [hr] at h
        cases h
        exact ⟨[], s, .refl, r, hr⟩
      | ok top? t =>
        have hlt := (nextRecord_eq_ok_iff.1 hr).pending_lt
        rw [hr] at h
        rcases top? with _ | ⟨p, d⟩
        · cases h
        · have hpush : (t.push p d).cursor.pending.length < n := by
            simp only [Session.push]
            omega
          obtain ⟨ps, t', hs, he⟩ := ih hpush h
          exact ⟨[p] ++ ps, t', (Steps.single hr).trans hs, he⟩
  · rintro ⟨ps, t, hs, r, he⟩
    have hle := hs.length_le
    exact ⟨r, hs.records_eq_error he (by omega)⟩

/-! ## Places in a decode -/

variable {options : Options} {heap : Heap} {source : Source} {name : String}

/-- A point of a decode in front of a record, whose length `n` has been read. -/
inductive AtRecord (options : Options) (heap : Heap) (source : Source) (name : String) :
    Context → Nat → Session → Prop
  | mk {ctx : Context} {ps : List Prototype} {t : Session} {n : Nat} {c : Cursor}
      (hp : Point options heap source name ctx ps t) (hl : nextLength t.cursor = .ok (some n) c) :
      AtRecord options heap source name ctx n { t with cursor := c }

/-- A point of a decode behind the front of a record, amid its objects, of which so many are left
to be read. -/
inductive Amid (options : Options) (heap : Heap) (source : Source) (name : String) :
    Context → Front → Nat → Session → Prop
  | mk {ctx : Context} {n left depth : Nat} {s t : Session} {f : Front} {c : Cursor}
      {pool : List (Constant Prototype)} (ha : AtRecord options heap source name ctx n s)
      (hf : front ctx s.cursor = .ok f c) (ho : Objects { s with cursor := c } pool depth t)
      (hl : pool.length + left = f.objectCount.toNat) :
      Amid options heap source name ctx f left t

/-- Every way in which a decode may fail: which operation fails, and where. -/
inductive Stop (options : Options) (heap : Heap) (source : Source) (name : String) (e : Failure) :
    Prop
  | opening (h : Fails (opening options) (.ofSource source) e)
  | length {ctx : Context} {ps : List Prototype} {t : Session}
      (hp : Point options heap source name ctx ps t) (h : Fails nextLength t.cursor e)
  | front {ctx : Context} {n : Nat} {s : Session}
      (ha : AtRecord options heap source name ctx n s) (h : Fails (front ctx) s.cursor e)
  | object {ctx : Context} {f : Front} {left : Nat} {t : Session}
      (ha : Amid options heap source name ctx f (left + 1) t) (h : Fails object t e)
  | debug {ctx : Context} {f : Front} {t : Session} (ha : Amid options heap source name ctx f 0 t)
      (h : Fails (debugInfo ctx.flags.order f) t.cursor e)
  | mismatch {ctx : Context} {n : Nat} {s t : Session} {r : Prototype × Nat}
      (ha : AtRecord options heap source name ctx n s) (hr : record ctx s = .ok r t)
      (hn : t.cursor.position - s.cursor.position ≠ n)
      (h : e = ⟨"", s.cursor.position, .lengthMismatch n (t.cursor.position - s.cursor.position)⟩)
  | root {ctx : Context} {ps : List Prototype} {t r : Session}
      (hp : Point options heap source name ctx ps t) (hn : nextRecord ctx t = .ok none r)
      (h : Fails root r e)

theorem RecordStop.stop {n : Nat} (ha : AtRecord options heap source name ctx n s)
    (h : RecordStop ctx s e) : Stop options heap source name e := by
  cases h with
  | front h => exact .front ha h
  | @object f c pool depth t hf ho hl h =>
    obtain ⟨left, hleft⟩ : ∃ left, pool.length + (left + 1) = f.objectCount.toNat :=
      ⟨f.objectCount.toNat - pool.length - 1, by omega⟩
    exact .object (.mk ha hf ho hleft) h
  | debug hf ho hl h => exact .debug (.mk ha hf ho hl) h

theorem RoundStop.stop {ps : List Prototype} (hp : Point options heap source name ctx ps s)
    (h : RoundStop ctx s e) : Stop options heap source name e := by
  cases h with
  | length h => exact .length hp h
  | record hl h => exact h.stop (.mk hp hl)
  | mismatch hl hr hn h => exact .mismatch (.mk hp hl) hr hn h

/-- A container fails with a round. -/
theorem Point.fails {ps : List Prototype} (hp : Point options heap source name ctx ps s)
    (h : RoundStop ctx s e) :
    Fails (container options (Utf8.encode name)) (.start heap source) e := by
  obtain ⟨r, hr⟩ := fails_nextRecord_iff.2 h
  cases hp with
  | mk hh hs => exact ⟨r, containerBy_eq_error hh (hs.records_eq_error hr hs.length_lt_rounds)⟩

theorem AtRecord.fails {n : Nat} (ha : AtRecord options heap source name ctx n s)
    (h : RecordStop ctx s e) :
    Fails (container options (Utf8.encode name)) (.start heap source) e := by
  cases ha with
  | mk hp hl => exact hp.fails (.record hl h)

/-- The head of a container fails with its reading. -/
theorem fails_header_iff {bytes : Bytes} :
    Fails (header options bytes) s e ↔ Fails (opening options) s.cursor e := by
  refine Decoding.fails_read_iff.trans (or_iff_left ?_)
  rintro ⟨_, _, -, h⟩
  exact fails_pure_iff.1 ((fails_bind_of_ok rfl).1 h)

/-- A container fails exactly at a stop. -/
theorem fails_container_iff : Fails (container options (Utf8.encode name)) (.start heap source) e ↔
    Stop options heap source name e := by
  constructor
  · intro h
    rcases fails_bind_iff.1 h with hh | ⟨hd, s, hh, h⟩
    · exact .opening (fails_header_iff.1 hh)
    rcases fails_bind_iff.1 ((fails_bind_of_ok rfl).1 ((fails_bind_of_ok rfl).1 h)) with
      hr | ⟨_, r, hr, hroot⟩
    · have hrounds : (s.opened hd).cursor.pending.length < s.cursor.undelivered + 1 :=
        Nat.lt_succ_of_le s.cursor.length_pending_le
      obtain ⟨ps, t, hs, he⟩ := (fails_records_iff hrounds).1 hr
      exact he.stop (.mk hh hs)
    · obtain ⟨ps, t, hs, hn, -⟩ := records_eq_ok_iff.1 hr
      exact .root (.mk hh hs) hn hroot
  · intro h
    cases h with
    | opening h => exact fails_bind_iff.2 (.inl (fails_header_iff.2 h))
    | length hp h => exact hp.fails (.length h)
    | front ha h => exact ha.fails (.front h)
    | object ha h =>
      cases ha with
      | mk ha hf ho hl => exact ha.fails (.object hf ho (by omega) h)
    | debug ha h =>
      cases ha with
      | mk ha hf ho hl => exact ha.fails (.debug hf ho hl h)
    | mismatch ha hr hn h =>
      cases ha with
      | mk hp hl => exact hp.fails (.mismatch hl hr hn h)
    | root hp hn h =>
      cases hp with
      | @mk hd s t ps hh hs =>
        have hr := records_eq_ok_iff.2 ⟨_, _, hs, hn, hs.length_lt_rounds⟩
        refine (fails_bind_of_ok hh).2 ((fails_bind_of_ok (t := s.opened hd) rfl).2 ?_)
        exact (fails_bind_of_ok rfl).2 ((fails_bind_of_ok hr).2 h)

/-- A decode fails exactly at a stop, under the name of its source. -/
theorem decode_eq_error_iff : (decode options heap source name).result = .error e ↔
    ∃ e₀, Stop options heap source name e₀ ∧ e = { e₀ with chunk := chunkDisplayName name } := by
  simp only [← fails_container_iff]
  constructor
  · intro h
    rw [decode] at h
    cases hx : container options (Utf8.encode name) (.start heap source) with
    | ok p t =>
      rw [hx] at h
      cases h
    | error e₀ t =>
      rw [hx] at h
      cases h
      exact ⟨e₀, ⟨t, hx⟩, rfl⟩
  · rintro ⟨e₀, ⟨t, hx⟩, rfl⟩
    exact Decoded.ofRun_eq_error hx

end Container

end JitDump
