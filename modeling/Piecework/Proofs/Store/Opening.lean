import Piecework.Store.Opening
import Piecework.Proofs.Store.History

/-!
# Opening a database again

Between any two calls a database may be closed and opened again.  Nobody notices
(`sessions_eq_session`): the calls of several sessions are answered as if they were made in one,
and the same database is left.  So the notes of all sessions on a new database account for its
tasks, and no session takes away what an earlier one has left (`sessions_free`).  A place that
cannot be opened is left as it is, and whoever comes next is told the same.

A session has at least one call or opens the place in vain; the induction is on the sessions that
follow the first one, since it is the first one that makes a place a database.
-/

namespace Piecework

open Time (Instant)

namespace Store

/-- Two histories, one after the other, are one history. -/
theorem history_append (calls later : List (Instant × Call)) (s : Store) :
    s.history (calls ++ later) =
      ((s.history calls).1 ++ ((s.history calls).2.history later).1,
        ((s.history calls).2.history later).2) := by
  induction calls generalizing s with
  | nil => rfl
  | cons call rest ih => simp only [List.cons_append, history, ih]

end Store

namespace Place

/-- Opens a place, makes calls and closes it again: the notes about the calls, or why the place
cannot be opened, and what the place is then. -/
def session (calls : List (Instant × Call)) (p : Place) :
    Except StoreError (List Store.Note) × Place :=
  match p.openStore with
  | .error e => (.error e, p)
  | .ok s => (.ok (s.history calls).1, .database (s.history calls).2)

/-- Sessions, one after the other, until the place cannot be opened: all notes in turn. -/
def sessions : List (List (Instant × Call)) → Place → Except StoreError (List Store.Note) × Place
  | [], p => (.ok [], p)
  | calls :: rest, p =>
    match p.session calls with
    | (.error e, p) => (.error e, p)
    | (.ok notes, p) =>
      match sessions rest p with
      | (.error e, p) => (.error e, p)
      | (.ok later, p) => (.ok (notes ++ later), p)

theorem session_of_error {p : Place} {e : StoreError} (h : p.openStore = .error e)
    (calls : List (Instant × Call)) : p.session calls = (.error e, p) := by
  rw [session, h]

theorem session_of_ok {p : Place} {s : Store} (h : p.openStore = .ok s)
    (calls : List (Instant × Call)) :
    p.session calls = (.ok (s.history calls).1, .database (s.history calls).2) := by
  rw [session, h]

/-- Sessions on a database are one history of it. -/
theorem sessions_database (pieces : List (List (Instant × Call))) (s : Store) :
    (database s).sessions pieces =
      (.ok (s.history pieces.flatten).1, .database (s.history pieces.flatten).2) := by
  induction pieces generalizing s with
  | nil => rfl
  | cons calls rest ih =>
    rw [sessions, session_of_ok rfl]
    dsimp only
    rw [ih, List.flatten_cons, Store.history_append]

/-- It makes no difference whether a place is closed and opened again between calls. -/
theorem sessions_eq_session (calls : List (Instant × Call))
    (pieces : List (List (Instant × Call))) (p : Place) :
    p.sessions (calls :: pieces) = p.session (calls :: pieces).flatten := by
  cases hopen : p.openStore with
  | error e => rw [sessions, session_of_error hopen, session_of_error hopen]
  | ok s =>
    rw [sessions, session_of_ok hopen, session_of_ok hopen]
    dsimp only
    rw [sessions_database, List.flatten_cons, Store.history_append]

/-- Sessions on a new database are one history of the empty store. -/
theorem sessions_new (calls : List (Instant × Call)) (pieces : List (List (Instant × Call))) :
    free.sessions (calls :: pieces) =
      (.ok (Store.empty.history (calls :: pieces).flatten).1,
        .database (Store.empty.history (calls :: pieces).flatten).2) := by
  rw [sessions_eq_session, session_of_ok rfl]

/-- Sessions on a new database: none is refused, the notes of all of them account for the tasks,
and what the earlier sessions have left the later ones have kept. -/
theorem sessions_free (calls : List (Instant × Call))
    (before after : List (List (Instant × Call))) :
    ∃ notes s later s',
      free.sessions (calls :: before) = (.ok notes, .database s) ∧
      free.sessions (calls :: before ++ after) = (.ok (notes ++ later), .database s') ∧
      s'.WellFormed ∧ Store.Books (notes ++ later) s' ∧ Store.Outlives s s' := by
  have hflat : (calls :: (before ++ after)).flatten =
      (calls :: before).flatten ++ after.flatten := by
    rw [← List.cons_append, List.flatten_append]
  have hall := sessions_new calls (before ++ after)
  have hbooks := Store.books_empty.history Store.wellFormed_empty
    (calls :: (before ++ after)).flatten
  have hwell := Store.wellFormed_empty.history (calls :: before).flatten
  rw [hflat, Store.history_append] at hall hbooks
  exact ⟨_, _, _, _, sessions_new calls before, hall, hwell.history _, hbooks,
    Store.history_outlives hwell _⟩

end Place

end Piecework
