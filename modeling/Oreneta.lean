import Oreneta.Merge.States
import Oreneta.Merge.Sender
import Oreneta.TaskSync.Deletion
import Oreneta.Receipts.Convergence
import Oreneta.FolderMove.Reconcile
import Oreneta.Spam.Counted
import Oreneta.Pop3.Deletion
import Oreneta.AutoArchive.Once
import Oreneta.Imap.Utf7
import Oreneta.Store.LocalDrafts
import Oreneta.Store.Arrivals
import Oreneta.Calendar.BetweenLooks
import Oreneta.Threads.Marks
import Oreneta.Html.Governed
import Oreneta.Recipients.Agreement
import Oreneta.Secrets.NeverLost
import Oreneta.Kanban.LatestLoad
import Oreneta.Dav.Complete
import Oreneta.TaskSync.ListsKept
import Oreneta.ProfileArchive.Restored
import Oreneta.Graph.Rounds
import Oreneta.Merge.Columns
import Oreneta.Merge.Ready
import Oreneta.Rules.Broader
import Oreneta.Store.Suggestions
import Oreneta.Search.RoundTrip
import Oreneta.Privacy.Credentials
import Oreneta.Privacy.Rewriting
import Oreneta.Calendar.RuleParts
import Oreneta.Contacts.PatchedGroup
import Oreneta.Awaiting.Evidence
import Oreneta.Calendar.Numbers
import Oreneta.Search.Kept
import Oreneta.Search.Pages
import Oreneta.Threads.CardCounts
import Oreneta.Store.ExchangeUids
import Oreneta.Threads.PagesBack
import Oreneta.Recipients.Checked
import Oreneta.Recipients.ReplyField
import Oreneta.Dav.Versions
import Oreneta.Ics.Instants
import Oreneta.Ics.Occurrences
import Oreneta.Contacts.Folding
import Oreneta.Paging.Cursors
import Oreneta.Paging.Starred
import Oreneta.Smtp.Sending
import Oreneta.Smtp.Submit
import Oreneta.BackupSchedule.Runs
import Oreneta.Pop3.NonePassed
