import Chef.Foundations.Transition

namespace Chef
open Foundations List
/-- Closed entries are `none`; `live` are the descriptors that the host has given and not taken. -/
structure HostFiles where
  openFiles : List (Option Nat)
  live : List Nat

/-- Requests come with the answers of the host and the number of bytes that guest memory takes,
and with no arguments if these are symbolic. -/
inductive HostRequest where
  | symbolic
  | open (opened : Option Nat)
  | read (guestFd bufAddr count : Nat) (answer : Option (List UInt8)) (taken : Nat)
  | close (guestFd : Nat) (answer : Int)

structure HostReply where
  touched : Option Nat
  written : Option (Nat × List UInt8)
  ret : Int

def HostRequest.guestFd : HostRequest → Option Nat
  | .symbolic | .open _ => none
  | .read guestFd _ _ _ _ | .close guestFd _ => guestFd

namespace HostFiles
def failed : HostReply := ⟨none, none, -1⟩

section
variable (s : HostFiles)
/-- There is no reply to an access outside of the table. -/
def read (guestFd bufAddr count : Nat) (answer : Option (List UInt8)) (taken : Nat) :
    Option HostReply :=
  if 1024 * 64 < count ∨ s.openFiles.length < guestFd then some failed
  else s.openFiles[guestFd]?.map fun entry => entry.elim failed fun fd =>
    ⟨fd, answer.map fun bytes => (bufAddr, bytes.take taken),
      (answer.filter fun bytes => bytes.length ≤ taken).elim (-1) fun bytes => bytes.length⟩

def close (guestFd : Nat) (answer : Int) : HostReply × HostFiles :=
  match s.openFiles[guestFd]? with
  | some (some fd) => (⟨fd, none, answer⟩, ⟨s.openFiles.set guestFd none, s.live.erase fd⟩)
  | _ => (failed, s)

def handle : HostRequest → Option (HostReply × HostFiles)
  | .symbolic | .open none => some (failed, s)
  | .open (some fd) =>
    some (⟨none, none, s.openFiles.length⟩, ⟨s.openFiles ++ [some fd], fd :: s.live⟩)
  | .read guestFd bufAddr count answer taken =>
    (s.read guestFd bufAddr count answer taken).map fun r => (r, s)
  | .close guestFd answer => some (s.close guestFd answer)

structure Right (e : HostRequest) (r : HostReply × HostFiles) : Prop where
  touched : ∀ fd, r.1.touched = some fd → fd ∈ s.live
  notOpen : ∀ g, e.guestFd = some g → (∀ fd, s.openFiles[g]? ≠ some (some fd)) →
    r.1.ret = -1 ∧ r.1.written = none ∧ r.2.openFiles = s.openFiles

def Inv : Prop := (s.openFiles.filterMap id).Perm s.live

end

def machine : Machine HostFiles HostRequest where
  init s := s = ⟨[], []⟩
  step s e s' := ∃ r, s.handle e = some (r, s')

theorem Inv.close (h : Inv s) (hi : s.openFiles[i]? = some (some fd)) :
    Inv ⟨s.openFiles.set i none, s.live.erase fd⟩ := by
  obtain ⟨hlt, hg⟩ := List.getElem?_eq_some_iff.1 hi
  obtain ⟨l, m, hl, -, hs⟩ := @exists_of_set _ i none _ hlt
  rw [hg] at hl
  rw [Inv, hl, filterMap_append] at h
  have he := (perm_middle.symm.trans h).erase fd
  rw [erase_cons_head] at he
  rw [Inv, hs, filterMap_append]
  exact he

theorem Inv.handle (h : Inv s) (hs : s.handle e = some (r, s')) : Inv s' := by
  fun_cases HostFiles.handle s e with
  | case1 | case2 =>
    cases hs
    exact h
  | case3 fd =>
    cases hs
    rw [Inv, filterMap_append]
    exact (perm_append_singleton fd _).trans (h.cons fd)
  | case4 guestFd bufAddr count answer taken =>
    obtain ⟨_, _, hs⟩ := Option.map_eq_some_iff.1 hs
    cases hs
    exact h
  | case5 guestFd answer =>
    rw [HostFiles.handle, HostFiles.close] at hs
    split at hs
    next fd hi =>
      cases hs
      exact h.close hi
    · cases hs
      exact h

theorem reached_inv (h : machine.Reached s) : Inv s := by
  apply h.invariant
  · rintro s rfl
    exact .nil
  · rintro s e s' hi - ⟨r, hr⟩
    exact hi.handle hr

theorem Inv.right (h : Inv s) (hg : e.guestFd = some g) (hi : s.openFiles[g]? = some (some fd))
    (hr : r.1.touched = some fd) : s.Right e r := by
  refine ⟨fun fd' hfd => ?_, fun g' hg' hn => ?_⟩
  · cases hr.symm.trans hfd
    exact h.mem_iff.1 (mem_filterMap.2 ⟨some fd, mem_of_getElem? hi, rfl⟩)
  · cases hg.symm.trans hg'
    exact absurd hi (hn fd)

/-- Requests are handled right, but for a read right behind the table. -/
theorem handle_right_iff (h : machine.Reached s) (e : HostRequest) :
    (∃ r, s.handle e = some r ∧ s.Right e r) ↔ ∀ bufAddr count answer taken,
      e = .read s.openFiles.length bufAddr count answer taken → 1024 * 64 < count := by
  have hl := reached_inv h
  have hfl : s.Right e (failed, s) := ⟨by rintro _ ⟨⟩, fun _ _ _ => ⟨rfl, rfl, rfl⟩⟩
  fun_cases HostFiles.handle s e with
  | case1 | case2 => exact iff_of_true ⟨_, rfl, hfl⟩ (by rintro _ _ _ _ ⟨⟩)
  | case3 fd => exact iff_of_true ⟨_, rfl, by rintro _ ⟨⟩, by rintro _ ⟨⟩⟩ (by rintro _ _ _ _ ⟨⟩)
  | case5 guestFd answer =>
    refine iff_of_true ⟨_, rfl, ?_⟩ (by rintro _ _ _ _ ⟨⟩)
    rw [HostFiles.close]
    split
    next fd hi => exact hl.right rfl hi rfl
    · exact hfl
  | case4 guestFd bufAddr count answer taken =>
    rw [HostFiles.read]
    by_cases hc : 1024 * 64 < count ∨ s.openFiles.length < guestFd
    · rw [if_pos hc]
      refine iff_of_true ⟨_, rfl, hfl⟩ ?_
      rintro _ _ _ _ ⟨⟩
      exact hc.resolve_right (Nat.lt_irrefl _)
    rw [if_neg hc]
    cases hs : s.openFiles[guestFd]? with
    | none =>
      have hle := getElem?_eq_none_iff.1 hs
      obtain rfl : guestFd = s.openFiles.length := by omega
      refine iff_of_false ?_ fun ha => hc (.inl (ha _ _ _ _ rfl))
      rintro ⟨_, ⟨⟩, -⟩
    | some entry =>
      refine iff_of_true ⟨_, rfl, ?_⟩ ?_
      · cases entry with
        | none => exact hfl
        | some fd => exact hl.right rfl hs rfl
      · rintro _ _ _ _ ⟨⟩
        rw [getElem?_eq_none (Nat.le_refl _)] at hs
        cases hs

theorem handle_right_iff_opened :
    (∃ r, handle ⟨[some 7], [7]⟩ (.read 0 64 2 (some [1, 2]) 2) = some r ∧
      Right ⟨[some 7], [7]⟩ (.read 0 64 2 (some [1, 2]) 2) r) ∧
    (∃ r, handle ⟨[some 7], [7]⟩ (.close 0 0) = some r ∧ Right ⟨[some 7], [7]⟩ (.close 0 0) r) ∧
    ∃ r, handle ⟨[none], []⟩ (.read 0 64 2 none 2) = some r ∧
      Right ⟨[none], []⟩ (.read 0 64 2 none 2) r := by
  have ho : machine.Reached ⟨[some 7], [7]⟩ :=
    .step (.init rfl) (e := .open (some 7)) trivial ⟨_, rfl⟩
  have hc : machine.Reached ⟨[none], []⟩ := .step ho (e := .close 0 0) trivial ⟨_, rfl⟩
  exact ⟨(handle_right_iff ho _).2 (by rintro _ _ _ _ ⟨⟩),
    (handle_right_iff ho _).2 (by rintro _ _ _ _ ⟨⟩),
    (handle_right_iff hc _).2 (by rintro _ _ _ _ ⟨⟩)⟩

theorem firstRead_outside : handle ⟨[], []⟩ (.read 0 0 1 none 1) = none := rfl

end HostFiles
end Chef
