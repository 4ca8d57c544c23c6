import CFunc.EventLoop.Watching
import Mathlib.Data.List.Perm.Subperm

/-!
What the functions on file handlers keep.

The descriptors watched have one handler each; the masks to check and the number
of descriptors are those of the handlers' list. Only a descriptor without a place
in an `fd_set` is refused, and only when it is new.
-/

namespace CFunc.EventLoop

open CFunc.Lib

variable {F P D : Type}

/-! ### Sets of the descriptors in a list -/

theorem place_eq {fd : Int} (inside : 0 ≤ fd ∧ fd < FD_SETSIZE) : place fd = some fd.toNat :=
  if_pos inside

theorem members_of_iff {fds : List Int} {fd : Int} (natural : 0 ≤ fd) :
    members_of fds fd.toNat = true ↔ fd ∈ fds := by
  rw [members_of, decide_eq_true_iff, Int.toNat_of_nonneg natural]

theorem update_cons {fd : Int} (natural : 0 ≤ fd) (fds : List Int) :
    Function.update (members_of fds) fd.toNat true = members_of (fd :: fds) := by
  obtain ⟨n, rfl⟩ := Int.eq_ofNat_of_zero_le natural
  funext d
  by_cases here : d = n
  · simp [members_of, here]
  · have other : (d : Int) ≠ n := fun same => here (Int.natCast_inj.mp same)
    simp [members_of, here, other]

theorem update_filter {fd : Int} (natural : 0 ≤ fd) (fds : List Int) :
    Function.update (members_of fds) fd.toNat false = members_of (fds.filter fun d => d ≠ fd) := by
  obtain ⟨n, rfl⟩ := Int.eq_ofNat_of_zero_le natural
  funext d
  by_cases here : d = n
  · simp [members_of, here]
  · have other : (d : Int) ≠ n := fun same => here (Int.natCast_inj.mp same)
    simp [members_of, here, other]

theorem update_zero (d : Nat) : Function.update FD_ZERO d false = FD_ZERO :=
  Function.update_eq_self d FD_ZERO

/-- No more descriptors have a property than places in a set do. -/
theorem length_le_countP {fds : List Int} (distinct : fds.Nodup)
    (inside : ∀ fd ∈ fds, 0 ≤ fd ∧ fd < FD_SETSIZE) {p : Nat → Bool}
    (all : ∀ fd ∈ fds, p fd.toNat = true) :
    fds.length ≤ (List.range FD_SETSIZE).countP p := by
  have nodup : (fds.map Int.toNat).Nodup := by
    refine distinct.map_on fun d member d' member' same => ?_
    have := inside d member
    have := inside d' member'
    omega
  have places : fds.map Int.toNat ⊆ (List.range FD_SETSIZE).filter p := by
    intro d member
    obtain ⟨fd, listed, rfl⟩ := List.mem_map.mp member
    have := inside fd listed
    exact List.mem_filter.mpr ⟨List.mem_range.mpr (by omega), all fd listed⟩
  rw [List.countP_eq_length_filter, ← List.length_map Int.toNat]
  exact (nodup.subperm places).length_le

theorem lt_highest_of {fds : List Int} {fd : Int} (member : fd ∈ fds) : fd < highest_of fds := by
  induction fds with
  | nil => cases member
  | cons first fds ih =>
      rw [highest_of]
      rcases List.mem_cons.mp member with rfl | later
      · omega
      · have := ih later
        omega

theorem highest_of_nonneg (fds : List Int) : 0 ≤ highest_of fds := by
  induction fds with
  | nil => exact le_rfl
  | cons first fds ih => exact le_max_of_le_right ih

theorem highest_of_le {fds : List Int} {b : Int} (natural : 0 ≤ b) (below : ∀ fd ∈ fds, fd < b) :
    highest_of fds ≤ b := by
  induction fds with
  | nil => exact natural
  | cons first fds ih =>
      refine max_le (below first List.mem_cons_self) (ih fun fd member => ?_)
      exact below fd (List.mem_cons_of_mem first member)

/-- The bound is no more than it has to be. -/
theorem highest_of_eq {fds : List Int} {b : Int} (below : ∀ fd ∈ fds, fd < b)
    (reached : b = 0 ∨ b - 1 ∈ fds) (natural : 0 ≤ b) : highest_of fds = b := by
  refine le_antisymm (highest_of_le natural below) ?_
  rcases reached with rfl | member
  · exact highest_of_nonneg fds
  · have := lt_highest_of member
    omega

theorem highest_of_reached {fds : List Int} (natural : ∀ fd ∈ fds, 0 ≤ fd) (some_fd : fds ≠ []) :
    highest_of fds - 1 ∈ fds := by
  induction fds with
  | nil => exact absurd rfl some_fd
  | cons first fds ih =>
      have first_natural := natural first List.mem_cons_self
      by_cases more : fds = []
      · subst more
        have only : highest_of [first] = first + 1 :=
          max_eq_left (a := first + 1) (b := 0) (by omega)
        simp [only]
      · have later := ih (fun fd member => natural fd (List.mem_cons_of_mem first member)) more
        rw [highest_of]
        rcases le_total (first + 1) (highest_of fds) with le | le
        · rw [max_eq_right le]
          exact List.mem_cons_of_mem first later
        · rw [max_eq_left le]
          simp

theorem highest_eq {fds : List Int} {n : Nat} (le : n ≤ FD_SETSIZE)
    (below : ∀ fd ∈ fds, fd < n) :
    highest (watch_masks fds) n = some (highest_of fds).toNat := by
  induction n with
  | zero =>
      have none_left : highest_of fds = 0 :=
        highest_of_eq (fun fd member => below fd member) (.inl rfl) le_rfl
      rw [highest, none_left]
      rfl
  | succ i ih =>
      have place : place (i : Int) = some i := place_eq ⟨Int.natCast_nonneg i, by omega⟩
      by_cases member : (i : Int) ∈ fds
      · have top : highest_of fds = (i + 1 : Nat) := by
          refine highest_of_eq below (.inr ?_) (Int.natCast_nonneg _)
          simpa using member
        rw [top, Int.toNat_natCast]
        simp [highest, FD_ISSET, place, watch_masks, members_of, member]
      · have rest := ih (Nat.le_of_succ_le le) fun fd inside => by
          have lt := below fd inside
          have other : fd ≠ i := ne_of_mem_of_not_mem inside member
          omega
        rw [← rest]
        simp [highest, FD_ISSET, place, watch_masks, members_of, member, FD_ZERO]

/-! ### The handlers -/

/-- What holds of the file handlers between any two calls. -/
structure Kept (n : Notifier F D) : Prop where
  distinct : (n.first_file_handler.map FileHandler.fd).Nodup
  inside : ∀ fd ∈ n.first_file_handler.map FileHandler.fd, 0 ≤ fd ∧ fd < FD_SETSIZE
  mask : ∀ h ∈ n.first_file_handler, h.mask = remote_READABLE ||| remote_EXCEPTION
  ready : ∀ h ∈ n.first_file_handler, h.ready_mask ≠ 0 → h.ready_mask &&& h.mask ≠ 0
  check : n.check_masks = watch_masks (n.first_file_handler.map FileHandler.fd)
  num_fds : n.num_fds = highest_of (n.first_file_handler.map FileHandler.fd)

section Steps

variable {n : Notifier F D} {fd : Int} {proc : F} {client_data : D}

/-- A change of one handler that leaves its descriptor alone. -/
theorem Kept.change (kept : Kept n) {f : FileHandler F D → FileHandler F D}
    (keeps : ∀ h, (f h).fd = h.fd)
    (mask : ∀ h ∈ n.first_file_handler, (f h).mask = remote_READABLE ||| remote_EXCEPTION)
    (ready : ∀ h ∈ n.first_file_handler, (f h).ready_mask ≠ 0 →
      (f h).ready_mask &&& (f h).mask ≠ 0) :
    Kept { n with
      first_file_handler := Keyed.change FileHandler.fd fd f n.first_file_handler } := by
  have fds : (Keyed.change FileHandler.fd fd f n.first_file_handler).map FileHandler.fd =
      n.first_file_handler.map FileHandler.fd := Keyed.map_change keeps
  constructor
  · simpa only [fds] using kept.distinct
  · simpa only [fds] using kept.inside
  · intro h member
    rcases Keyed.mem_change member with old | ⟨h, old, -, rfl⟩
    · exact kept.mask h old
    · exact mask h old
  · intro h member
    rcases Keyed.mem_change member with old | ⟨h, old, -, rfl⟩
    · exact kept.ready h old
    · exact ready h old
  · simpa only [fds] using kept.check
  · simpa only [fds] using kept.num_fds

/-- A known descriptor gets a new handler. -/
theorem add_known (proc : F) (client_data : D) (kept : Kept n)
    (known : fd ∈ n.first_file_handler.map FileHandler.fd) :
    ∃ n', add_file_handler fd proc client_data n = some n' ∧ Kept n' ∧
      n'.first_file_handler = Keyed.change FileHandler.fd fd
        (fun h => { h with proc := proc, client_data := client_data,
                           mask := remote_READABLE ||| remote_EXCEPTION })
          n.first_file_handler := by
  have found : Keyed.find FileHandler.fd fd n.first_file_handler ≠ none := fun none_found =>
    Keyed.find_eq_none.mp none_found known
  obtain ⟨h, found⟩ := Option.ne_none_iff_exists'.mp found
  refine ⟨_, by rw [add_file_handler, create_file_handler, found], ?_, rfl⟩
  refine kept.change (fun _ => rfl) (fun _ _ => rfl) fun h member some_ready => ?_
  have matched := kept.ready h member some_ready
  rwa [kept.mask h member] at matched

theorem create_new (new : fd ∉ n.first_file_handler.map FileHandler.fd) :
    add_file_handler fd proc client_data n = do
      let readable ← FD_SET fd n.check_masks.readable
      let writable ← FD_CLR fd n.check_masks.writable
      let exception ← FD_SET fd n.check_masks.exception
      let file_ptr := { fd := fd, mask := remote_READABLE ||| remote_EXCEPTION, ready_mask := 0,
                        proc := proc, client_data := client_data, error := none }
      return { first_file_handler := file_ptr :: n.first_file_handler,
               check_masks :=
                 { readable := readable, writable := writable, exception := exception },
               num_fds := if n.num_fds ≤ fd then fd + 1 else n.num_fds } := by
  rw [add_file_handler, create_file_handler, Keyed.find_eq_none.mpr new]
  rfl

theorem add_new (proc : F) (client_data : D) (kept : Kept n)
    (new : fd ∉ n.first_file_handler.map FileHandler.fd)
    (inside : 0 ≤ fd ∧ fd < FD_SETSIZE) :
    ∃ n', add_file_handler fd proc client_data n = some n' ∧ Kept n' ∧
      n'.first_file_handler =
        { fd := fd, mask := remote_READABLE ||| remote_EXCEPTION, ready_mask := 0, proc := proc,
          client_data := client_data, error := none } :: n.first_file_handler := by
  refine ⟨_, by simp [create_new new, FD_SET, FD_CLR, place_eq inside]; rfl, ?_, rfl⟩
  constructor
  · exact List.nodup_cons.mpr ⟨new, kept.distinct⟩
  · intro d member
    rcases List.mem_cons.mp member with rfl | old
    · exact inside
    · exact kept.inside d old
  · intro h member
    rcases List.mem_cons.mp member with rfl | old
    · rfl
    · exact kept.mask h old
  · intro h member
    rcases List.mem_cons.mp member with rfl | old
    · exact fun some_ready => absurd rfl some_ready
    · exact kept.ready h old
  · rw [kept.check, List.map_cons, watch_masks, update_cons inside.1, update_zero]
    rfl
  · change (if n.num_fds ≤ fd then fd + 1 else n.num_fds) = max (fd + 1) (highest_of _)
    rw [← kept.num_fds]
    split <;> omega

theorem add_outside (new : fd ∉ n.first_file_handler.map FileHandler.fd)
    (outside : ¬ (0 ≤ fd ∧ fd < FD_SETSIZE)) : add_file_handler fd proc client_data n = none := by
  rw [create_new new, FD_SET, place, if_neg outside]
  rfl

theorem delete_known (kept : Kept n) (known : fd ∈ n.first_file_handler.map FileHandler.fd) :
    ∃ n', delete_file_handler fd n = some n' ∧ Kept n' ∧
      n'.first_file_handler = Keyed.remove FileHandler.fd fd n.first_file_handler := by
  have found : Keyed.find FileHandler.fd fd n.first_file_handler ≠ none := fun none_found =>
    Keyed.find_eq_none.mp none_found known
  obtain ⟨h, found⟩ := Option.ne_none_iff_exists'.mp found
  have mask := kept.mask h (Keyed.mem_of_find found)
  have inside := kept.inside fd known
  set fds := n.first_file_handler.map FileHandler.fd
  have left : (Keyed.remove FileHandler.fd fd n.first_file_handler).map FileHandler.fd =
      fds.filter fun d => d ≠ fd := by
    rw [Keyed.remove_eq_filter kept.distinct, List.filter_map]
    rfl
  have readable : FD_DROP h.mask remote_READABLE fd n.check_masks.readable =
      some (members_of (fds.filter fun d => d ≠ fd)) := by
    rw [FD_DROP, mask, if_pos (by decide), FD_CLR, place_eq inside, kept.check,
      ← update_filter inside.1]
    rfl
  have writable : FD_DROP h.mask remote_WRITABLE fd n.check_masks.writable = some FD_ZERO := by
    rw [FD_DROP, mask, if_neg (by decide), kept.check]
    rfl
  have exception : FD_DROP h.mask remote_EXCEPTION fd n.check_masks.exception =
      some (members_of (fds.filter fun d => d ≠ fd)) := by
    rw [FD_DROP, mask, if_pos (by decide), FD_CLR, place_eq inside, kept.check,
      ← update_filter inside.1]
    rfl
  -- the number of descriptors falls to what the others need
  have below : ∀ d ∈ fds.filter fun d => d ≠ fd, d ∈ fds ∧ d ≠ fd ∧ d < n.num_fds := by
    intro d member
    obtain ⟨inside, other⟩ := List.mem_filter.mp member
    exact ⟨inside, of_decide_eq_true other, kept.num_fds ▸ lt_highest_of inside⟩
  have num_fds : find_max (watch_masks (fds.filter fun d => d ≠ fd)) fd n.num_fds =
      some (highest_of (fds.filter fun d => d ≠ fd)) := by
    rw [find_max]
    by_cases top : fd + 1 = n.num_fds
    · have counter : (((n.num_fds - 1).toNat : Nat) : Int) = fd := by omega
      have fits : (n.num_fds - 1).toNat ≤ FD_SETSIZE := by omega
      rw [if_pos top, highest_eq fits]
      · exact congrArg some (Int.toNat_of_nonneg (highest_of_nonneg _))
      · intro d member
        obtain ⟨-, other, lt⟩ := below d member
        omega
    · rw [if_neg top]
      refine congrArg some (highest_of_eq (fun d member => (below d member).2.2) (.inr ?_) ?_).symm
      · have reached := highest_of_reached (fun d member => (kept.inside d member).1)
          (List.ne_nil_of_mem known)
        rw [← kept.num_fds] at reached
        refine List.mem_filter.mpr ⟨reached, decide_eq_true fun same => top ?_⟩
        omega
      · rw [kept.num_fds]
        exact highest_of_nonneg _
  refine ⟨{ first_file_handler := Keyed.remove FileHandler.fd fd n.first_file_handler,
            check_masks := watch_masks (fds.filter fun d => d ≠ fd),
            num_fds := highest_of (fds.filter fun d => d ≠ fd) }, ?_, ?_, rfl⟩
  · simp only [delete_file_handler, found, readable, writable, exception, Option.bind_eq_bind,
      Option.bind_some]
    rw [← watch_masks, num_fds]
    rfl
  · have kept_of_mem {h : FileHandler F D}
        (member : h ∈ Keyed.remove FileHandler.fd fd n.first_file_handler) :
        h ∈ n.first_file_handler := List.mem_of_mem_eraseP member
    constructor
    · rw [left]
      exact kept.distinct.filter _
    · rw [left]
      exact fun d member => kept.inside d (List.mem_filter.mp member).1
    · exact fun h member => kept.mask h (kept_of_mem member)
    · exact fun h member => kept.ready h (kept_of_mem member)
    · rw [left]
    · rw [left]

/-- Deleting a descriptor that is not watched does nothing. -/
theorem delete_kept (kept : Kept n) (fd : Int) :
    ∃ n', delete_file_handler fd n = some n' ∧ Kept n' ∧
      n'.first_file_handler = Keyed.remove FileHandler.fd fd n.first_file_handler := by
  by_cases known : fd ∈ n.first_file_handler.map FileHandler.fd
  · exact delete_known kept known
  · refine ⟨n, ?_, kept, (Keyed.remove_of_notMem known).symm⟩
    rw [delete_file_handler, Keyed.find_eq_none.mpr known]

end Steps

end CFunc.EventLoop
