import Sailing.Transport.Frame
import Sailing.Lib.Framing

/-!
# Reassembly of an arbitrary stream

`FrameDecoder` on any bytes at all, cut anywhere and polled at any time. `Reads d out w` relates
a decoder to the bytes `w` it was fed and the payloads `out` it gave out; a round of `push`'s
loop and a `poll` keep it, hence so does every run of pushes and polls.
-/

namespace Sailing.Transport

namespace FrameDecoder

open List (append_nil length_take append_assoc length_append drop_left' prefix_append take_left')
open Octets (ofBe be)

/-- Frames at the front of a byte string. -/
abbrev Splits : Bytes → List Bytes → Bytes → Prop := Framing.Splits 4 ofBe maxFrameLen

/-- A header that declares more than `MAX_FRAME_LEN`. -/
abbrev Oversized : Bytes → Prop := Framing.Oversized 4 ofBe maxFrameLen

/-- The payloads of the successive frames of a byte string, up to the first
oversized header or the end. -/
def reference (s : Bytes) : List Bytes := (Framing.parse 4 ofBe maxFrameLen s).1

/-- The frames of a byte string end at an oversized header. -/
def HasOversized (s : Bytes) : Prop := Oversized (Framing.parse 4 ofBe maxFrameLen s).2

instance (s : Bytes) : Decidable (HasOversized s) := inferInstanceAs (Decidable (Framing.Oversized ..))

/-- How the decoder counts the bytes that follow the last complete frame. -/
def Awaits (expect : Option Nat) (tail : Bytes) : Prop :=
  (expect = none ∧ tail.length < 4) ∨
    (expect = some (4 + ofBe (tail.take 4)) ∧ 4 ≤ tail.length ∧ tail.length < 4 + ofBe (tail.take 4) ∧
      ofBe (tail.take 4) ≤ maxFrameLen)

/-- A decoder that was fed `w` and gave out `out`: it holds the other complete frames of `w`
and what follows them. -/
def Live (d : FrameDecoder) (out : List Bytes) (w : Bytes) : Prop :=
  d.failed = false ∧ ∃ held tail, Splits w (out ++ held) tail ∧ Splits d.buf held tail ∧ tail.length = d.fill ∧
    Awaits d.expect tail

/-- A decoder that met an oversized header: it holds nothing. -/
def Failed (d : FrameDecoder) (out : List Bytes) (w : Bytes) : Prop :=
  d = ⟨[], 0, none, true⟩ ∧ ∃ ps tail, Splits w ps tail ∧ Oversized tail ∧ out <+: ps

def Reads (d : FrameDecoder) (out : List Bytes) (w : Bytes) : Prop := Live d out w ∨ Failed d out w

variable {d : FrameDecoder} {out held : List Bytes} {w x input tail : Bytes} {expect : Option Nat}

theorem Awaits.short (h : Awaits expect tail) : Framing.Partial 4 ofBe tail := by
  obtain ⟨-, short⟩ | ⟨-, -, short, -⟩ := h
  · exact .inl short
  · exact .inr short

theorem Awaits.not_oversized (h : Awaits expect tail) : ¬ Oversized tail := by
  rintro ⟨long, large⟩
  obtain ⟨-, short⟩ | ⟨-, -, -, small⟩ := h
  · omega
  · omega

theorem reference_of_splits {ps : List Bytes} (h : Splits w ps tail) (ends : Framing.Ends 4 ofBe maxFrameLen tail) :
    reference w = ps ∧ (HasOversized w ↔ Oversized tail) := by
  have parsed := h.eq_parse (by decide)
  rw [Framing.parse_of_ends ends] at parsed
  unfold reference HasOversized
  rw [parsed]
  exact ⟨append_nil ps, Iff.rfl⟩

theorem Live.reference (h : Live d out w) : (∃ held, FrameDecoder.reference w = out ++ held) ∧ ¬ HasOversized w := by
  obtain ⟨-, held, tail, splits, -, -, awaits⟩ := h
  obtain ⟨same, large⟩ := reference_of_splits splits (.inr awaits.short)
  exact ⟨⟨held, same⟩, fun has => awaits.not_oversized (large.mp has)⟩

theorem Failed.reference (h : Failed d out w) : out <+: FrameDecoder.reference w ∧ HasOversized w := by
  obtain ⟨-, ps, tail, splits, large, front⟩ := h
  obtain ⟨same, has⟩ := reference_of_splits splits (.inl large)
  rw [same]
  exact ⟨front, has.mpr large⟩

theorem Reads.front_reference (h : Reads d out w) : out <+: reference w := by
  obtain live | failed := h
  · obtain ⟨⟨held, same⟩, -⟩ := live.reference
    exact ⟨held, same.symm⟩
  · exact failed.reference.1

theorem Reads.buffered (h : Reads d out w) : if d.failed then d.buf = []
    else ∃ frames tail, Splits w (out ++ frames) tail ∧ Splits d.buf frames tail ∧ tail.length = d.fill ∧ ¬ Oversized tail := by
  obtain ⟨alive, held, tail, splits, buf, count, awaits⟩ | ⟨empty, -⟩ := h
  · rw [if_neg (by rw [alive]; decide)]
    exact ⟨held, tail, splits, buf, count, awaits.not_oversized⟩
  · rw [empty]
    rfl

theorem reads_new : Reads new [] [] := .inl ⟨rfl, [], [], .done [], .done [], rfl, .inl ⟨rfl, by decide⟩⟩

theorem Failed.append (h : Failed d out w) (x : Bytes) : Failed d out (w ++ x) := by
  obtain ⟨empty, ps, tail, splits, large, front⟩ := h
  exact ⟨empty, ps, tail ++ x, splits.append x, large.append x, front⟩

/-! ## A round of the loop -/

theorem Live.complete {payload : Bytes} (splits : Splits w (out ++ held) tail) (buf : Splits d.buf held tail)
    (alive : d.failed = false) (long : 4 ≤ (tail ++ x).length)
    (whole : (tail ++ x).drop 4 = payload) (declared : ofBe ((tail ++ x).take 4) = payload.length)
    (small : payload.length ≤ maxFrameLen) :
    Live { d with buf := d.buf ++ x, fill := 0, expect := none } out (w ++ x) := by
  have header : ((tail ++ x).take 4).length = 4 := by rw [length_take]; omega
  have one : Splits (tail ++ x) [payload] [] := by
    have frame : Splits ((tail ++ x).take 4 ++ payload) [payload] [] := .single header declared small
    have cut : tail ++ x = (tail ++ x).take 4 ++ payload := by rw [← whole, List.take_append_drop]
    rwa [cut]
  refine ⟨alive, held ++ [payload], [], ?_, (buf.append x).trans one, rfl, .inl ⟨rfl, by decide⟩⟩
  rw [← append_assoc]
  exact (splits.append x).trans one

theorem Live.more (splits : Splits w (out ++ held) tail) (buf : Splits d.buf held tail)
    (alive : d.failed = false) {fill : Nat} (count : (tail ++ x).length = fill) (awaits : Awaits expect (tail ++ x)) :
    Live { d with buf := d.buf ++ x, fill := fill, expect := expect } out (w ++ x) :=
  ⟨alive, held, tail ++ x, splits.append x, buf.append x, count, awaits⟩

theorem goes_on {fuel took : Nat} {e : FrameDecoder} (pos : 0 < took) (bound : took ≤ input.length)
    (next : ∃ used rest, input.drop took = used ++ rest ∧ ((input.drop took).length ≤ fuel → rest = []) ∧
      Reads e out (w ++ input.take took ++ used)) :
    ∃ used rest, input = used ++ rest ∧ (input.length ≤ fuel + 1 → rest = []) ∧ Reads e out (w ++ used) := by
  obtain ⟨used, rest, cut, enough, reads⟩ := next
  refine ⟨input.take took ++ used, rest, ?_, fun fits => enough ?_, ?_⟩
  · rw [append_assoc, ← cut, List.take_append_drop]
  · rw [List.length_drop]
    omega
  · rwa [← append_assoc]

theorem pushLoop_reads (fuel : Nat) (d : FrameDecoder) (w input : Bytes) (live : Live d out w) :
    ∃ used rest, input = used ++ rest ∧ (input.length ≤ fuel → rest = []) ∧
      Reads (pushLoop fuel d input) out (w ++ used) := by
  induction fuel generalizing d w input with
  | zero =>
    refine ⟨[], input, rfl, fun fits => List.length_eq_zero_iff.mp (Nat.le_zero.mp fits), ?_⟩
    rw [append_nil]
    exact .inl live
  | succ fuel ih =>
    by_cases empty : input = []
    · refine ⟨[], [], empty, fun _ => rfl, ?_⟩
      rw [append_nil, pushLoop, if_pos empty]
      exact .inl live
    have some_left : 0 < input.length := List.length_pos_iff.mpr empty
    obtain ⟨alive, held, tail, splits, buf, count, awaits⟩ := live
    obtain ⟨expect, short⟩ | ⟨expect, long, short, small⟩ := awaits
    · -- the header is not complete
      rw [pushLoop, if_neg empty]
      simp only [expect]
      generalize size : min (4 - d.fill) input.length = took
      have taken : (tail ++ input.take took).length = d.fill + took := by
        rw [length_append, length_take, count]
        omega
      split
      · next still =>
        have all : input.take took = input := List.take_of_length_le (by omega)
        refine ⟨input, [], (append_nil _).symm, fun _ => rfl, .inl ?_⟩
        have more := Live.more splits buf alive taken (.inl ⟨rfl, by omega⟩)
        rw [all] at more ⊢
        exact more
      · next full =>
        have header : (d.buf ++ input.take took).drop ((d.buf ++ input.take took).length - 4) = tail ++ input.take took := by
          obtain ⟨front, whole⟩ := (buf.append (input.take took)).suffix
          rw [← whole, length_append, taken]
          exact drop_left' (by omega)
        rw [header]
        have four : (tail ++ input.take took).take 4 = tail ++ input.take took := List.take_of_length_le (by omega)
        split
        · next large =>
          refine ⟨input, [], (append_nil _).symm, fun _ => rfl, .inr ⟨rfl, out ++ held, tail ++ input, ?_, ?_, ?_⟩⟩
          · exact splits.append input
          · have huge : Oversized (tail ++ input.take took) := ⟨by omega, by rwa [four]⟩
            have cut : tail ++ input = tail ++ input.take took ++ input.drop took := by
              rw [append_assoc, List.take_append_drop]
            rw [cut]
            exact huge.append _
          · exact prefix_append out held
        · next fits =>
          split
          · next zero =>
            refine goes_on (by omega) (by omega) (ih _ _ _ ?_)
            refine Live.complete splits buf alive (by omega) (List.drop_of_length_le (by omega)) ?_ (by simp)
            rw [four, zero]
            rfl
          · next pos =>
            refine goes_on (by omega) (by omega) (ih _ _ _ ?_)
            refine Live.more splits buf alive taken (.inr ⟨?_, by omega, ?_, ?_⟩)
            · rw [four]
            · rw [four]
              omega
            · rw [four]
              omega
    · -- the payload is not complete
      rw [pushLoop, if_neg empty]
      simp only [expect]
      generalize size : min (4 + ofBe (tail.take 4) - d.fill) input.length = took
      have taken : (tail ++ input.take took).length = d.fill + took := by
        rw [length_append, length_take, count]
        omega
      have front : (tail ++ input.take took).take 4 = tail.take 4 := List.take_append_of_le_length long
      split
      · next full =>
        refine goes_on (by omega) (by omega) (ih _ _ _ ?_)
        have payload : ((tail ++ input.take took).drop 4).length = ofBe (tail.take 4) := by
          rw [List.length_drop]
          omega
        exact Live.complete splits buf alive (by omega) rfl (by rw [front, payload]) (by rw [payload]; exact small)
      · next still =>
        refine goes_on (by omega) (by omega) (ih _ _ _ ?_)
        refine Live.more splits buf alive taken (.inr ⟨?_, by omega, ?_, ?_⟩)
        · rw [front]
        · rw [front]
          omega
        · rwa [front]

theorem push_reads (reads : Reads d out w) (bytes : Bytes) : Reads (push d bytes) out (w ++ bytes) := by
  obtain live | failed := reads
  · obtain ⟨used, rest, cut, enough, after⟩ := pushLoop_reads bytes.length d w bytes live
    rw [enough le_rfl, append_nil] at cut
    rw [push, if_neg (by rw [live.1]; decide), cut]
    rwa [cut] at after
  · rw [push, if_pos (by rw [failed.1])]
    exact .inr (failed.append bytes)

/-! ## Polls -/

theorem poll_live (live : Live d out w) :
    (∃ p b, poll d = (.ok (some p), { d with buf := b }) ∧ Splits d.buf [p] b ∧ Live { d with buf := b } (out ++ [p]) w) ∨
      (poll d = (.ok none, d) ∧ reference w = out) := by
  obtain ⟨alive, held, tail, splits, buf, count, awaits⟩ := live
  have going : ¬ d.failed = true := by rw [alive]; decide
  generalize holds : d.buf = b at buf
  cases buf with
  | done =>
    refine .inr ⟨?_, ?_⟩
    · have none_left : d.buf.length - d.fill < 4 := by
        rw [holds]
        omega
      simp only [poll, if_neg going, if_pos none_left]
    · rw [append_nil] at splits
      exact (reference_of_splits splits (.inr awaits.short)).1
  | @frame head payload b _ held header declared small more =>
    have front : d.buf.take 4 = head := by
      rw [holds, append_assoc]
      exact take_left' header
    have length : d.buf.length = 4 + payload.length + b.length := by
      rw [holds, length_append, length_append, header]
    have trailing : tail.length ≤ b.length := more.suffix.length_le
    have cut : (head ++ payload).length = 4 + payload.length := by rw [length_append, header]
    refine .inl ⟨payload, b, ?_, holds ▸ .frame header declared small (.done b), alive, held, tail, ?_, more, count, awaits⟩
    · simp only [poll, if_neg going, front, declared]
      rw [if_neg (by omega), if_neg (by omega), holds, take_left' cut, drop_left' cut, drop_left' header]
    · rw [append_assoc]
      exact splits

theorem poll_failed (failed : Failed d out w) : poll d = (.error .frameTooLarge, d) := by
  rw [failed.1]
  rfl

/-! ## Runs -/

/-- A call of the decoder. -/
inductive Move where
  | push (bytes : Bytes)
  | poll

/-- The bytes the calls push. -/
def pushed : List Move → Bytes
  | [] => []
  | .push bytes :: moves => bytes ++ pushed moves
  | .poll :: moves => pushed moves

/-- What the polls return, and the decoder after the calls. -/
def run : FrameDecoder → List Move → List (Except TransportError (Option Bytes)) × FrameDecoder
  | d, [] => ([], d)
  | d, .push bytes :: moves => run (d.push bytes) moves
  | d, .poll :: moves =>
    let (reply, d) := d.poll
    let (replies, d) := run d moves
    (reply :: replies, d)

/-- The payload of a reply, if it has one. -/
def payload? : Except TransportError (Option Bytes) → Option Bytes
  | .ok p => p
  | .error _ => none

theorem run_reads (moves : List Move) (d : FrameDecoder) (out : List Bytes) (w : Bytes) (reads : Reads d out w) :
    Reads (run d moves).2 (out ++ (run d moves).1.filterMap payload?) (w ++ pushed moves) := by
  induction moves generalizing d out w with
  | nil =>
    rw [run, pushed, append_nil, List.filterMap_nil, append_nil]
    exact reads
  | cons move moves ih =>
    cases move with
    | push bytes =>
      have next := ih (d.push bytes) out (w ++ bytes) (push_reads reads bytes)
      rwa [append_assoc] at next
    | poll =>
      obtain live | failed := reads
      · obtain ⟨p, b, reply, -, after⟩ | ⟨reply, -⟩ := poll_live live
        · have next := ih _ (out ++ [p]) w (.inl after)
          simp only [run, reply, pushed]
          rwa [append_assoc] at next
        · simp only [run, reply, pushed]
          exact ih d out w (.inl live)
      · simp only [run, poll_failed failed, pushed]
        exact ih d out w (.inr failed)

/-- A decoder that met an oversized header refuses every poll. -/
theorem run_failed (moves : List Move) (failed : Failed d out w) :
    ∀ reply ∈ (run d moves).1, reply = .error .frameTooLarge := by
  induction moves generalizing w with
  | nil => exact fun reply mem => absurd mem List.not_mem_nil
  | cons move moves ih =>
    cases move with
    | push =>
      rw [run, push, if_pos (by rw [failed.1])]
      exact ih failed
    | poll =>
      simp only [run, poll_failed failed]
      exact List.forall_mem_cons.mpr ⟨rfl, ih failed⟩

theorem run_append (xs ys : List Move) (d : FrameDecoder) :
    run d (xs ++ ys) = ((run d xs).1 ++ (run (run d xs).2 ys).1, (run (run d xs).2 ys).2) := by
  induction xs generalizing d with
  | nil => rfl
  | cons move xs ih =>
    cases move with
    | push bytes => exact ih (d.push bytes)
    | poll =>
      simp only [List.cons_append, run, ih]

theorem run_polls (n : Nat) (d : FrameDecoder) (out held : List Bytes) (live : Live d out w)
    (rest : reference w = out ++ held) :
    (run d (List.replicate n .poll)).1 =
      (held.take n).map (fun p => Except.ok (some p)) ++ List.replicate (n - held.length) (Except.ok none) := by
  induction n generalizing d out held with
  | zero => simp [run]
  | succ n ih =>
    obtain ⟨p, b, reply, -, after⟩ | ⟨reply, none_left⟩ := poll_live live
    · obtain ⟨⟨more, same⟩, -⟩ := after.reference
      have first : held = p :: more := by
        rw [rest, append_assoc] at same
        exact List.append_cancel_left same
      have next := ih _ (out ++ [p]) more after same
      simp only [List.replicate_succ, run, reply, next, first, List.take_succ_cons, List.map_cons, List.cons_append,
        List.length_cons, Nat.add_sub_add_right]
    · have empty : held = [] := by
        rw [rest] at none_left
        exact List.append_right_eq_self.mp none_left
      have next := ih d out held live rest
      simp only [List.replicate_succ, run, reply, next, empty, List.take_nil, List.map_nil, List.nil_append,
        List.length_nil, Nat.sub_zero]

/-- Frame reassembly does not depend on where the stream is cut nor on when it is polled. The
payloads given out are a front of the reference; unless a header is oversized, further polls give
out the rest of it and then nothing, and after one every poll is refused. After any number of
rounds of a push that has read `used`, the decoder holds the frames of the stream not yet given
out and a rest whose header, if complete, is not oversized; or it holds nothing. -/
theorem reassembly_ignores_chunking (moves : List Move) :
    (run new moves).1.filterMap payload? <+: reference (pushed moves) ∧
      (¬ HasOversized (pushed moves) → ∀ n, ∃ rest,
        (run new moves).1.filterMap payload? ++ rest = reference (pushed moves) ∧
          (run new (moves ++ List.replicate n .poll)).1 = (run new moves).1 ++
            ((rest.take n).map (fun p => Except.ok (some p)) ++ List.replicate (n - rest.length) (Except.ok none))) ∧
      (HasOversized (pushed moves) → ∀ later, ∀ reply ∈ (run (run new moves).2 later).1,
        reply = .error .frameTooLarge) ∧
      ∀ rounds bytes, (run new moves).2.failed = false →
        ∃ used, used <+: bytes ∧
          let d := pushLoop rounds (run new moves).2 bytes
          if d.failed then d.buf = []
          else ∃ frames tail, Splits (pushed moves ++ used) ((run new moves).1.filterMap payload? ++ frames) tail ∧
            Splits d.buf frames tail ∧ tail.length = d.fill ∧ ¬ Oversized tail := by
  have reads := run_reads moves new [] [] reads_new
  rw [List.nil_append, List.nil_append] at reads
  refine ⟨reads.front_reference, fun none_large n => ?_, fun large later => ?_, fun rounds bytes alive => ?_⟩
  · obtain live | failed := reads
    · obtain ⟨⟨rest, same⟩, -⟩ := live.reference
      refine ⟨rest, same.symm, ?_⟩
      rw [run_append, run_polls n _ _ rest live same]
    · exact absurd failed.reference.2 none_large
  · obtain live | failed := reads
    · exact absurd large live.reference.2
    · exact run_failed later failed
  · obtain live | failed := reads
    · obtain ⟨used, rest, cut, -, after⟩ := pushLoop_reads rounds _ _ bytes live
      exact ⟨used, ⟨rest, cut.symm⟩, after.buffered⟩
    · rw [failed.1] at alive
      exact absurd alive (by decide)

end FrameDecoder

/-! ## A stream of frames -/

open FrameDecoder

/-- The first four bytes of a stream of frames are the header of the first. -/
theorem header_of_initial {head : Bytes} {more : List Bytes} (h4 : head.length = 4)
    (h : head <+: more.flatMap encodeFrame) :
    ∃ p rest, more = p :: rest ∧ head = Octets.be 4 p.length := by
  cases more with
  | nil =>
    have hle := h.length_le
    rw [h4] at hle
    cases hle
  | cons p rest =>
    refine ⟨p, rest, rfl, ?_⟩
    have hb : (Octets.be 4 p.length).length = 4 := Octets.length_be 4 _
    have htake := List.prefix_iff_eq_take.mp h
    rw [h4, List.flatMap_cons, encodeFrame, List.append_assoc, List.take_left' hb] at htake
    exact htake

theorem ofBe_header {p : Bytes} (small : p.length ≤ maxFrameLen) : Octets.ofBe (Octets.be 4 p.length) = p.length :=
  Octets.ofBe_be (small.trans_lt (by decide))

theorem eq_of_splits {w tail : Bytes} {fs : List Bytes} (h : Splits w fs tail) : w = fs.flatMap encodeFrame ++ tail := by
  induction h with
  | done => rfl
  | @frame head payload w tail fs header declared _ _ ih =>
    have same : head = Octets.be 4 payload.length := by rw [← declared, ← header, Octets.be_ofBe]
    rw [ih, same]
    simp [encodeFrame]

/-- The frames of a part of a stream are the first frames of the stream. -/
theorem exists_more {w tail : Bytes} {fs ps : List Bytes} (h : Splits w fs tail) (small : ∀ p ∈ ps, p.length ≤ maxFrameLen)
    (initial : w <+: ps.flatMap encodeFrame) :
    ∃ more, ps = fs ++ more ∧ tail <+: more.flatMap encodeFrame := by
  induction h generalizing ps with
  | done => exact ⟨ps, rfl, initial⟩
  | @frame head payload w tail fs header declared fits more ih =>
    rw [List.append_assoc] at initial
    obtain ⟨p, rest, rfl, rfl⟩ := header_of_initial header ((List.prefix_append _ _).trans initial)
    have length : payload.length = p.length := by rw [← declared, ofBe_header (small p List.mem_cons_self)]
    rw [List.flatMap_cons, encodeFrame, List.append_assoc, List.prefix_append_right_inj] at initial
    have same : payload = p := by
      have front := List.prefix_of_prefix_length_le ((List.prefix_append _ _).trans initial) (List.prefix_append _ _) length.le
      exact front.eq_of_length length
    subst same
    obtain ⟨more, rfl, after⟩ :=
      ih (fun q mem => small q (List.mem_cons_of_mem _ mem)) ((List.prefix_append_right_inj _).mp initial)
    exact ⟨more, rfl, after⟩

/-- A decoder that was fed `w`, a part of the stream of the frames `ps`, since
it gave out its last frame. -/
structure Holds (d : FrameDecoder) (ps : List Bytes) (w : Bytes) : Prop where
  buf : d.buf = w
  initial : w <+: ps.flatMap encodeFrame
  live : Live d [] w

namespace Holds

variable {d : FrameDecoder} {ps : List Bytes} {w : Bytes}

theorem new (ps : List Bytes) : Holds .new ps [] :=
  ⟨rfl, List.nil_prefix, rfl, [], [], .done [], .done [], rfl, .inl ⟨rfl, by decide⟩⟩

theorem append (h : Holds d ps w) (new : List Bytes) : Holds d (ps ++ new) w := by
  refine ⟨h.buf, ?_, h.live⟩
  rw [List.flatMap_append]
  exact h.initial.trans (List.prefix_append _ _)

theorem push {bytes : Bytes} (h : Holds d ps w) (small : ∀ p ∈ ps, p.length ≤ maxFrameLen)
    (hp : w ++ bytes <+: ps.flatMap encodeFrame) : Holds (d.push bytes) ps (w ++ bytes) := by
  obtain live | ⟨-, fs, tail, splits, ⟨long, large⟩, -⟩ := push_reads (.inl h.live) bytes
  · obtain ⟨alive, held, tail, splits, buf, count, awaits⟩ := live
    exact ⟨(eq_of_splits buf).trans (eq_of_splits splits).symm, hp, alive, held, tail, splits, buf, count, awaits⟩
  · obtain ⟨more, rfl, after⟩ := exists_more splits small hp
    obtain ⟨p, rest, rfl, header⟩ := header_of_initial (by rw [List.length_take]; omega) ((List.take_prefix 4 tail).trans after)
    rw [header, ofBe_header (small p (by simp))] at large
    exact absurd (small p (by simp)) (not_le.mpr large)

theorem poll (h : Holds d ps w) (small : ∀ p ∈ ps, p.length ≤ maxFrameLen) :
    (∃ p rest w', ps = p :: rest ∧ w = encodeFrame p ++ w' ∧
      d.poll = (.ok (some p), { d with buf := w' }) ∧ Holds { d with buf := w' } rest w') ∨
    (d.poll = (.ok none, d) ∧ ∀ p rest, ps = p :: rest → ¬ encodeFrame p <+: w) := by
  obtain ⟨p, b, reply, frame, alive, held, tail, -, buf, after⟩ | ⟨reply, done⟩ := poll_live h.live
  · rw [h.buf] at frame
    obtain ⟨more, rfl, initial⟩ := exists_more frame small h.initial
    exact .inl ⟨p, more, b, rfl, by simpa using eq_of_splits frame, reply, rfl, initial, alive, held, tail, buf, buf, after⟩
  · refine .inr ⟨reply, fun p rest hps ⟨x, whole⟩ => ?_⟩
    have fits := small p (by simp [hps])
    have frame : Splits w [p] x := by
      rw [← whole]
      exact .frame (Octets.length_be 4 _) (ofBe_header fits) fits (.done x)
    have parsed := congrArg Prod.fst (frame.eq_parse (by decide))
    rw [show (Framing.parse 4 Octets.ofBe maxFrameLen w).1 = [] from done] at parsed
    cases parsed

end Holds

end Sailing.Transport
