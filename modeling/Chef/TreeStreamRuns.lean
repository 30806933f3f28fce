import Mathlib.Data.Nat.Bitwise
import Chef.TreeStream

namespace Chef
open Foundations List Nat
namespace TreeStreamWriter
open LogEntry
theorem readWord_word (h : n < 2 ^ 32) (rest : List UInt8) :
    readWord (word n ++ rest) = some (n, rest) := by
  rw [word, cons_append, cons_append, cons_append, cons_append, nil_append, readWord]
  simp only [UInt8.toNat_ofNat', Option.some.injEq, Prod.mk.injEq, and_true]
  omega

/-- A record. Forks are marked by the highest bit of the second word. -/
def encode : LogEntry UInt8 → List UInt8
  | .fork parent child => word parent ++ word (child ||| 2 ^ 31)
  | .data id items => word id ++ word items.length ++ items

theorem encode_fork (parent child : Nat) :
    encode (.fork parent child) = word parent ++ word (child ||| 2 ^ 31) := rfl

theorem encode_data (id : Nat) (items : List UInt8) :
    encode (.data id items) = word id ++ word items.length ++ items := rfl

def Fits : LogEntry UInt8 → Prop
  | .fork parent child => parent < 2 ^ 31 ∧ child < 2 ^ 31
  | .data id items => id < 2 ^ 31 ∧ items.length < 2 ^ 31

theorem testBit_mark (n : Nat) : (n ||| 2 ^ 31).testBit 31 = true := by
  rw [testBit_or, testBit_two_pow_self, Bool.or_true]

theorem mark_xor (h : n < 2 ^ 31) : (n ||| 2 ^ 31) ^^^ 2 ^ 31 = n := by
  apply eq_of_testBit_eq
  intro i
  rw [testBit_xor, testBit_or]
  by_cases hi : i = 31
  · rw [hi, testBit_two_pow_self, testBit_lt_two_pow h]
    rfl
  · rw [testBit_two_pow_of_ne (Ne.symm hi), Bool.or_false, Bool.xor_false]

theorem mark_lt (h : n < 2 ^ 31) : n ||| 2 ^ 31 < 2 ^ 32 :=
  or_lt_two_pow (h.trans (by decide)) (by decide)

theorem length_le_encode (es : List (LogEntry UInt8)) : es.length ≤ (es.flatMap encode).length := by
  induction es with
  | nil => exact Nat.le_refl 0
  | cons e es ih =>
    have hp : 1 ≤ (encode e).length := by
      cases e with
      | fork parent child | data _ _ => exact succ_pos _
    rw [flatMap_cons, length_append, length_cons]
    omega

theorem findRoots_encode {pre : List (LogEntry UInt8)} (hft : ∀ e ∈ pre, Fits e)
    (hnew : ∀ p, .fork p s ∉ pre) (hpa : parent < 2 ^ 31) (hs : s < 2 ^ 31)
    (rest : List UInt8) (parents : List (Nat × Nat)) (hfu : pre.length < fuel) :
    findRoots s fuel (pre.flatMap encode ++ (encode (.fork parent s) ++ rest)) parents =
      followParents (pre.foldl addParent parents) ((pre.foldl addParent parents).length + 2) parent
        [s] := by
  induction pre generalizing parents fuel with
  | nil =>
    obtain ⟨fuel, rfl⟩ := exists_eq_succ_of_ne_zero (Nat.ne_zero_of_lt hfu)
    rw [flatMap_nil, nil_append, encode_fork, append_assoc, findRoots,
      readWord_word (hpa.trans (by decide))]
    simp only [readWord_word (mark_lt hs), testBit_mark, mark_xor hs, if_true, foldl_nil]
  | cons e pre ih =>
    obtain ⟨fuel, rfl⟩ := exists_eq_succ_of_ne_zero (Nat.ne_zero_of_lt hfu)
    obtain ⟨he, hr⟩ := forall_mem_cons.1 hft
    have hnew' : ∀ p, .fork p s ∉ pre := fun p hp => hnew p (mem_cons_of_mem _ hp)
    have hfe : pre.length < fuel := lt_of_succ_lt_succ hfu
    rw [flatMap_cons, append_assoc, foldl_cons, findRoots]
    cases e with
    | fork p c =>
      have hc : c ≠ s := fun hcs => hnew p (hcs ▸ mem_cons_self)
      rw [encode_fork p c, append_assoc, readWord_word (he.1.trans (by decide))]
      simp only [readWord_word (mark_lt he.2), testBit_mark, mark_xor he.2, if_true, if_neg hc]
      rw [ih hr hnew' _ hfe]
      rfl
    | data i items =>
      rw [encode_data, append_assoc, append_assoc, readWord_word (he.1.trans (by decide))]
      simp only [readWord_word (he.2.trans (by decide)), testBit_lt_two_pow he.2]
      rw [if_neg Bool.false_ne_true, if_pos (by rw [length_append]; omega), drop_left,
        ih hr hnew' _ hfe]
      rfl

theorem popRoot_eq (roots : List Nat) (parent child : Nat) (out : List UInt8) :
    replayStep (roots, out) (.fork parent child) = (popRoot roots parent child, out) := by
  match roots with
  | [] => rfl
  | [root] => rfl
  | root :: next :: rest =>
    by_cases h : parent = root ∧ child = next
    · rw [replayStep, popRoot, if_pos h]
      exact if_pos h
    · rw [replayStep, popRoot, if_neg h]
      exact if_neg h

section
variable {es : List (LogEntry UInt8)}
theorem replay_encode (hft : ∀ e ∈ es, Fits e)
    (roots : List Nat) (out : List UInt8) (hfu : es.length < fuel) :
    replay fuel (es.flatMap encode) roots out = .ok (es.foldl replayStep (roots, out)).2 := by
  induction es generalizing roots out fuel with
  | nil =>
    obtain ⟨fuel, rfl⟩ := exists_eq_succ_of_ne_zero (Nat.ne_zero_of_lt hfu)
    rfl
  | cons e es ih =>
    obtain ⟨fuel, rfl⟩ := exists_eq_succ_of_ne_zero (Nat.ne_zero_of_lt hfu)
    obtain ⟨he, hes⟩ := forall_mem_cons.1 hft
    have hfe : es.length < fuel := lt_of_succ_lt_succ hfu
    rw [flatMap_cons, foldl_cons, replay]
    cases e with
    | fork p c =>
      rw [encode_fork p c, append_assoc, readWord_word (he.1.trans (by decide))]
      simp only [readWord_word (mark_lt he.2), testBit_mark, mark_xor he.2, if_true]
      rw [ih hes _ _ hfe, popRoot_eq]
    | data i items =>
      rw [encode_data, append_assoc, append_assoc, readWord_word (he.1.trans (by decide))]
      simp only [readWord_word (he.2.trans (by decide)), testBit_lt_two_pow he.2]
      rw [if_neg Bool.false_ne_true, drop_left, take_left, length_append,
        Nat.sub_eq_zero_of_le (Nat.le_add_right _ _), replicate_zero, append_nil,
        ih hes _ _ hfe, replayStep]
      split <;> rfl

theorem followParents_paths (h : Valid es n) (hid : i < n) (hfu : i < fuel) (roots : List Nat) :
    followParents (es.foldl addParent []) fuel i roots = .ok (paths es i ++ roots) := by
  induction i using Nat.strong_induction_on generalizing fuel roots with
  | _ i ih =>
    obtain ⟨fuel, rfl⟩ := exists_eq_succ_of_ne_zero (Nat.ne_zero_of_lt hfu)
    rw [followParents]
    by_cases hz : i = 0
    · rw [if_pos hz, hz, h.paths_zero, nil_append]
    obtain ⟨parent, hlt, hl, hp⟩ := h.parents.2.2 i (Nat.pos_of_ne_zero hz) hid
    rw [if_neg hz, hl, hp, append_assoc, singleton_append]
    exact ih parent hlt (hlt.trans hid) (hlt.trans_le (le_of_lt_succ hfu)) (i :: roots)

theorem read_encode (h : Valid es n) (hft : ∀ e ∈ es, Fits e)
    (hn : n ≤ 2 ^ 31) (hs : 0 < s) (hlt : s < n) :
    (findRoots s ((es.flatMap encode).length + 1) (es.flatMap encode) [] >>= fun roots =>
      replay ((es.flatMap encode).length + 1) (es.flatMap encode) roots []) =
        .ok (contents es s) := by
  obtain ⟨pre, parent, post, hes, hpre, hpa, ht⟩ := h.forked hs hlt
  have hw : ∀ p, .fork p s ∉ pre := fun p hp => lt_irrefl _ (hpre.child_lt hp)
  have hl := length_le_encode es
  have hrts : findRoots s ((es.flatMap encode).length + 1) (es.flatMap encode) [] =
      .ok (paths es s) := by
    have hfu : pre.length < (es.flatMap encode).length + 1 := by
      rw [hes, length_append] at hl
      rw [hes]
      omega
    have hfi : es.flatMap encode =
        pre.flatMap encode ++ (encode (.fork parent s) ++ post.flatMap encode) := by
      rw [hes, flatMap_append, flatMap_cons]
    have hparent' : parent < 2 ^ 31 := by omega
    have hf := findRoots_encode (fun e he => hft e (hes ▸ mem_append_left _ he)) hw
      hparent' (by omega) (post.flatMap encode) [] hfu
    rw [← hfi] at hf
    have hln := hpre.parents.1
    rw [hf, followParents_paths hpre hpa (by omega), ht]
  have hrep := replay_encode hft (paths es s) [] (lt_succ_of_le hl)
  have hr := h.replay_path hs hlt (forall_mem_nil _)
  rw [append_nil] at hr
  rw [hr] at hrep
  simp only [hrts, bind, Except.bind, hrep]

end

def nextStream : List TreeEvent → Nat
  | [] => 1
  | .openFrom _ :: history => nextStream history + 1
  | .write _ _ :: history | .flush :: history => nextStream history

def written : List TreeEvent → Nat → List UInt8
  | [], _ => []
  | .openFrom parent :: history, i =>
    if i = nextStream history then written history parent else written history i
  | .write id s :: history, i =>
    if i = id then written history i ++ s else written history i
  | .flush :: history, i => written history i

def pending (w : TreeStreamWriter) : List (LogEntry UInt8) :=
  if w.bufferCount ≠ 0 then [.data w.lastID (w.buffer.take w.bufferCount)] else []

/-- The file and the buffer hold what was written to the streams. -/
structure Holds (w : TreeStreamWriter) (history : List TreeEvent) (es : List (LogEntry UInt8)) :
    Prop where
  output : w.output = es.flatMap encode
  valid : Valid es w.ids
  fits : ∀ e ∈ es, Fits e
  ids_eq : w.ids = nextStream history
  ids_le : w.ids ≤ 2 ^ 31
  buffer : w.buffer.length = bufferSize
  count : w.bufferCount ≤ bufferSize
  last : w.bufferCount ≠ 0 → 0 < w.lastID ∧ w.lastID < w.ids
  contents : contents (es ++ w.pending) = written history

theorem bufferSize_eq : bufferSize = 16384 := rfl

theorem contents_data_nil (es : List (LogEntry UInt8)) (id : Nat) :
    contents (es ++ [.data id []]) = contents es := by
  funext i
  rw [contents_concat, addContents, append_nil, ite_self]

theorem contents_data_append (es : List (LogEntry UInt8)) (id : Nat) (a b : List UInt8) :
    contents (es ++ [.data id (a ++ b)]) =
      addContents (contents (es ++ [.data id a])) (.data id b) := by
  funext i
  rw [contents_concat, contents_concat, addContents, addContents, addContents]
  split
  · rw [append_assoc]
  · rfl

theorem written_write (history : List TreeEvent) (id : Nat) (s : List UInt8) :
    written (.write id s :: history) = addContents (written history) (.data id s) := rfl

namespace Holds
theorem create (hm : memory.length = bufferSize) :
    Holds (TreeStreamWriter.create memory) [] [] where
  output := rfl
  valid := .nil
  fits := forall_mem_nil _
  ids_eq := rfl
  ids_le := show 1 ≤ 2 ^ 31 by decide
  buffer := hm
  count := Nat.zero_le _
  last h := absurd rfl h
  contents := rfl

variable (h : Holds w history es)
include h
theorem pending_fits : ∀ e ∈ w.pending, Fits e := by
  intro e he
  rw [pending] at he
  split at he
  next hc =>
    rw [mem_singleton.1 he]
    have hle := h.ids_le
    have hla := h.last hc
    have hn := h.count
    rw [bufferSize_eq] at hn
    refine ⟨by omega, ?_⟩
    rw [length_take]
    omega
  · exact absurd he not_mem_nil

theorem pending_valid : Valid (es ++ w.pending) w.ids := by
  rw [pending]
  split
  next hc => exact .data h.valid (h.last hc).1 (h.last hc).2
  · rw [append_nil]
    exact h.valid

theorem flushBuffer :
    Holds w.flushBuffer history (es ++ w.pending) ∧ w.flushBuffer.bufferCount = 0 ∧
      w.flushBuffer.ids = w.ids := by
  have hft : ∀ e ∈ es ++ w.pending, Fits e := by
    intro e he
    exact (mem_append.1 he).elim (h.fits e) (h.pending_fits e)
  have hvd := h.pending_valid
  have hc := h.contents
  rw [TreeStreamWriter.flushBuffer]
  rw [pending] at hft hvd hc ⊢
  split_ifs at hft hvd hc ⊢ with hn
  · refine ⟨⟨?_, hvd, hft, h.ids_eq, h.ids_le, h.buffer, Nat.zero_le _, ?_, ?_⟩, rfl, rfl⟩
    · have hl : (w.buffer.take w.bufferCount).length = w.bufferCount := by
        rw [length_take, h.buffer]
        exact Nat.min_eq_left h.count
      simp only [flatMap_append, flatMap_cons, flatMap_nil, append_nil,
        encode_data, hl, h.output, append_assoc]
    · exact fun hz => absurd rfl hz
    · rw [pending, if_neg (not_not.2 rfl), append_nil]
      exact hc
  · rw [append_nil] at *
    refine ⟨h, not_not.1 hn, rfl⟩

theorem flushed : Holds w (.flush :: history) es :=
  ⟨h.output, h.valid, h.fits, h.ids_eq, h.ids_le, h.buffer, h.count, h.last, h.contents⟩

theorem openFrom (hp : parent < w.ids) (hids : w.ids < 2 ^ 31) :
    ∃ es', Holds (w.openFrom parent).2 (.openFrom parent :: history) es' := by
  obtain ⟨hfl, hn, hs⟩ := h.flushBuffer
  have hpend : w.flushBuffer.pending = [] := if_neg (not_not.2 hn)
  have hc := hfl.contents
  rw [hpend, append_nil] at hc
  have his : (w.flushBuffer.ids + 1) % 2 ^ 32 = w.ids + 1 := by
    omega
  refine ⟨es ++ w.pending ++ [.fork parent w.ids], ?_, ?_, ?_, ?_, ?_, hfl.buffer,
    hfl.count, fun hne => absurd hn hne, ?_⟩
  · rw [TreeStreamWriter.openFrom]
    rw [flatMap_append, flatMap_singleton, encode_fork, ← append_assoc, hfl.output, hs]
  · rw [TreeStreamWriter.openFrom]
    rw [his]
    exact .fork (hs ▸ hfl.valid) hp
  · intro e he
    obtain he | he := mem_append.1 he
    · exact hfl.fits e he
    · rw [mem_singleton.1 he]
      exact ⟨by omega, hids⟩
  · rw [nextStream, ← h.ids_eq]
    exact his
  · rw [TreeStreamWriter.openFrom]
    rw [his]
    exact hids
  · have hpe : (w.openFrom parent).2.pending = [] := if_neg (not_not.2 hn)
    rw [hpe, append_nil, contents_concat, hc]
    funext i
    rw [addContents, written, h.ids_eq]

theorem writeThrough {id : Nat} (hid : 0 < id ∧ id < w.ids) (hs : s.length < bufferSize)
    (hr : w.bufferCount ≠ 0 → id = w.lastID ∧ s.length + w.bufferCount ≤ bufferSize) :
    ∃ v, w.writeThrough id s s.length = .ok v ∧ Holds v (.write id s :: history) es := by
  have hc := h.contents
  rw [pending] at hc
  rw [TreeStreamWriter.writeThrough, take_length]
  by_cases hcnt : w.bufferCount ≠ 0
  · obtain ⟨rfl, hft⟩ := hr hcnt
    have ht : (w.buffer.take w.bufferCount).length = w.bufferCount := by
      rw [length_take, h.buffer]
      exact Nat.min_eq_left h.count
    rw [if_pos hcnt, if_pos (by omega)]
    rw [if_pos hcnt] at hc
    refine ⟨_, rfl, h.output, h.valid, h.fits, h.ids_eq, h.ids_le, ?_, by simp only; omega,
      fun _ => hid, ?_⟩
    · simp only [copyTo, length_append, ht, length_drop, h.buffer]
      omega
    have hn : (copyTo w.buffer w.bufferCount s).take (w.bufferCount + s.length) =
        w.buffer.take w.bufferCount ++ s := by
      apply take_left'
      rw [length_append, ht]
    rw [pending, if_pos (by simp only; omega), written_write, ← hc]
    rw [hn, contents_data_append]
  · rw [if_neg hcnt, if_pos hs]
    rw [if_neg hcnt, append_nil] at hc
    have hn : (copyTo w.buffer 0 s).take s.length = s := by
      rw [copyTo, take_zero, nil_append]
      exact take_left' rfl
    refine ⟨_, rfl, h.output, h.valid, h.fits, h.ids_eq, h.ids_le, ?_, hs.le, fun _ => hid, ?_⟩
    · simp only [copyTo, take_zero, nil_append, length_append, length_drop, h.buffer]
      omega
    rw [pending, written_write, ← hc]
    split
    · rw [hn, contents_concat]
    next hz =>
      have hl : s = [] := length_eq_zero_iff.1 (not_not.1 hz)
      rw [hl, append_nil, ← contents_concat, contents_data_nil]

theorem write {id : Nat} (hid : 0 < id ∧ id < w.ids) (hs : s.length < bufferSize) :
    ∃ v es', w.write id s = .ok v ∧ Holds v (.write id s :: history) es' := by
  have hc := h.count
  have hsz : s.length % 2 ^ 32 = s.length := by
    rw [bufferSize_eq] at hs
    omega
  have hsum : (s.length + w.bufferCount) % 2 ^ 32 = s.length + w.bufferCount := by
    rw [bufferSize_eq] at hs hc
    omega
  rw [TreeStreamWriter.write, hsz]
  simp only [hsum]
  by_cases hfl : w.bufferCount ≠ 0 ∧ (id ≠ w.lastID ∨ bufferSize < s.length + w.bufferCount)
  · rw [if_pos hfl]
    obtain ⟨hf, hz, hm⟩ := h.flushBuffer
    obtain ⟨v, hv, hho⟩ := hf.writeThrough (hm ▸ hid) hs fun hne => absurd hz hne
    exact ⟨v, _, hv, hho⟩
  · rw [if_neg hfl]
    obtain ⟨v, hv, hho⟩ := h.writeThrough hid hs fun hne => by
      rw [not_and_or, not_or, not_not] at hfl
      obtain hz | ⟨hla, hft⟩ := hfl
      · exact absurd hz hne
      · exact ⟨not_not.1 hla, not_lt.1 hft⟩
    exact ⟨v, es, hv, hho⟩

theorem readStream (hp : 0 < i) (hlt : i < w.ids) :
    w.readStream i = .ok (written history i, w.flushBuffer) := by
  obtain ⟨hfl, hn, hs⟩ := h.flushBuffer
  have hpend : w.flushBuffer.pending = [] := if_neg (not_not.2 hn)
  have hc := hfl.contents
  rw [hpend, append_nil] at hc
  have hd := read_encode hfl.valid hfl.fits hfl.ids_le hp (hs ▸ hlt)
  rw [← hfl.output, hc] at hd
  obtain ⟨roots, hr, hrep⟩ := bind_ok_iff.1 hd
  rw [TreeStreamWriter.readStream, if_pos ⟨hp, hlt⟩]
  simp only [hr, hrep, bind, Except.bind]

end Holds

/-- Short writes, and not too many streams. -/
def Short (s : Logged) : TreeEvent → Prop
  | .openFrom _ => s.writer.ids < 2 ^ 31
  | .write _ bytes => bytes.length < bufferSize
  | .flush => True

theorem Holds.step (h : Holds s.writer s.history es) (hal : Short s e)
    (hs : machine.step s e s') : ∃ es', Holds s'.writer s'.history es' := by
  obtain ⟨w, hw, rfl⟩ := map_ok_iff.1 hs
  cases e with
  | openFrom parent =>
    rw [handle] at hw
    split at hw
    next hp =>
      cases hw
      exact h.openFrom hp hal
    · cases hw
  | write id bytes =>
    rw [handle] at hw
    split at hw
    next hid =>
      obtain ⟨v, es', hv, hho⟩ := h.write hid hal
      rw [hv] at hw
      cases hw
      exact ⟨es', hho⟩
    · cases hw
  | flush =>
    cases hw
    exact ⟨_, h.flushBuffer.1.flushed⟩

/-- With short writes a stream gives the bytes of its path. -/
theorem readStream_of_reachable (h : machine.Reachable Short s) (hpos : 0 < i)
    (hlt : i < s.writer.ids) :
    s.writer.readStream i = .ok (written s.history i, s.writer.flushBuffer) := by
  have hi : ∃ es, Holds s.writer s.history es := by
    apply h.invariant
    · rintro _ ⟨memory, hm, rfl⟩
      exact ⟨[], .create hm⟩
    · rintro s e s' ⟨es, hs⟩ hal ht
      exact hs.step hal ht
  obtain ⟨es, hes⟩ := hi
  exact hes.readStream hpos hlt

def openedBetween : List TreeEvent :=
  [.openFrom 0, .write 1 [1, 2], .openFrom 1, .write 1 [3], .write 2 [4]]

instance (s : Logged) (e : TreeEvent) : Decidable (Short s e) :=
  match e with
  | .openFrom _ => inferInstanceAs (Decidable (s.writer.ids < 2 ^ 31))
  | .write _ bytes => inferInstanceAs (Decidable (bytes.length < bufferSize))
  | .flush => inferInstanceAs (Decidable True)

theorem openedBetween_read :
    ∃ s, machine.Reachable Short s ∧ ∃ w, s.writer.readStream 2 = .ok ([1, 2, 4], w) := by
  have hm : (replicate bufferSize (0 : UInt8)).length = bufferSize := length_replicate
  generalize replicate bufferSize (0 : UInt8) = memory at hm
  obtain ⟨s, hs, hi, hw⟩ : ∃ s, runWhile Short logged openedBetween
      ⟨create memory, []⟩ = some s ∧ s.writer.ids = 3 ∧ written s.history 2 = [1, 2, 4] :=
    ⟨_, rfl, rfl, rfl⟩
  have hre : machine.Reachable Short s := .runWhile (fun _ _ _ h => h) (.init ⟨memory, hm, rfl⟩) hs
  have hr := readStream_of_reachable hre (i := 2) (by decide) (by rw [hi]; decide)
  rw [hw] at hr
  exact ⟨s, hre, _, hr⟩

/-- A write that fills the buffer is replaced by its old contents. -/
theorem longWrite_replaced : ∃ s, machine.Reached s ∧ written s.history 1 = replicate bufferSize 1 ∧
      ∃ w, s.writer.readStream 1 = .ok (replicate bufferSize 0, w) := by
  have hl : ∀ b : UInt8, (replicate bufferSize b).length = bufferSize := fun _ => length_replicate
  have hzs := hl 0
  have ho := hl 1
  generalize replicate bufferSize (0 : UInt8) = zeros at hzs
  generalize replicate bufferSize (1 : UInt8) = ones at ho
  have hp : logged ⟨create zeros, []⟩ (.openFrom 0) =
      .ok ⟨⟨zeros, 0, 0, encode (.fork 0 1), 2⟩, [.openFrom 0]⟩ := rfl
  have hwr : logged ⟨⟨zeros, 0, 0, encode (.fork 0 1), 2⟩, [.openFrom 0]⟩ (.write 1 ones) =
      .ok ⟨⟨zeros, 0, 0, encode (.fork 0 1) ++ encode (.data 1 zeros), 2⟩,
        [.write 1 ones, .openFrom 0]⟩ := by
    have hh : writeThrough ⟨zeros, 0, 0, encode (.fork 0 1), 2⟩ 1 ones bufferSize =
        .ok ⟨zeros, 0, 0, encode (.fork 0 1) ++ encode (.data 1 zeros), 2⟩ := by
      have ht : zeros.take bufferSize = zeros := take_of_length_le hzs.le
      rw [writeThrough, if_neg (not_not.2 rfl), if_neg (lt_irrefl _), if_pos le_rfl, ht,
        encode_data, hzs]
      simp only [append_assoc]
    have hid : 0 < 1 ∧ 1 < 2 := by decide
    rw [logged, handle, if_pos hid, write, ho]
    exact congrArg (Except.map _) hh
  have hre : machine.Reached ⟨⟨zeros, 0, 0, encode (.fork 0 1) ++ encode (.data 1 zeros), 2⟩,
      [.write 1 ones, .openFrom 0]⟩ :=
    .step (.step (.init ⟨zeros, hzs, rfl⟩) trivial hp) trivial hwr
  have hh : Holds ⟨zeros, 0, 0, encode (.fork 0 1) ++ encode (.data 1 zeros), 2⟩
      [.write 1 zeros, .openFrom 0] [.fork 0 1, .data 1 zeros] := by
    refine ⟨?_, .data (.fork .nil (by decide)) (by decide) (by decide), ?_, rfl,
      (by decide : 2 ≤ 2 ^ 31), hzs, Nat.zero_le _, fun h => absurd rfl h, rfl⟩
    · rw [flatMap_cons, flatMap_singleton]
    · refine forall_mem_cons.2 ⟨⟨by decide, by decide⟩, forall_mem_cons.2 ⟨⟨by decide, ?_⟩,
        forall_mem_nil _⟩⟩
      rw [hzs]
      decide
  exact ⟨_, hre, rfl, _, hh.readStream (by decide) (by decide : 1 < 2)⟩

end TreeStreamWriter
end Chef
