import Visftp.Lib.Histories
import Visftp.Lib.Lines
import Visftp.Lib.LinkedFifo
import Visftp.Lib.Rounding
import Visftp.Lib.TextLines
import Visftp.CString
import Visftp.Dirent
import Visftp.Reply
import Visftp.World
import Visftp.Commands
import Visftp.Operations
import Visftp.Handlers
import Visftp.Client
import Visftp.Session
import Visftp.Refinement
import Visftp.Moves
import Visftp.Callbacks
import Visftp.Upkeep
import Visftp.AfterHangup
import Visftp.Growth
import Visftp.Order
import Visftp.Progress
import Visftp.Transfers
import Visftp.Completion
import Visftp.Conservation
import Visftp.Dialogue
import Visftp.Serving
import Visftp.Login
import Visftp.Secrecy
import Visftp.Names
import Visftp.Listing
import Visftp.ListingReads
import Visftp.ListingChunks
import Visftp.LineAssembly
import Visftp.MultiLine
import Visftp.ReplyEvents
import Visftp.WaitReply
import Visftp.Busy
import Visftp.Numerals
import Visftp.TreeStore
import Visftp.TextStore
import Visftp.TextGrammar
import Visftp.TextAcceptance
import Visftp.TextLexing
import Visftp.ValueRoundTrip
import Visftp.TreeRoundTrip
import Visftp.Servers
import Visftp.Likeness
import Visftp.Erasure
import Visftp.Arrival
import Visftp.Confluence
import Visftp.Viewer
import Visftp.ViewerSpans
import Visftp.ViewerScroll
import Visftp.TuiList
import Visftp.TuiSelection
import Visftp.ViewTransfer
import Visftp.ScanNumbers
import Visftp.PassiveAddress
import Visftp.UnixListing
import Visftp.Entries
import Visftp.Received
import Visftp.MainLoop
import Visftp.FixedBuffers
import Visftp.Downloads
import Visftp.Panes
import Visftp.TuiCursor
import Visftp.ReplyTexts
import Visftp.Facts
import Visftp.CurrentDir
import Visftp.RemoteDir
import Visftp.Darray
import Visftp.Lib.Alloc
import Visftp.RawValues
import Visftp.RawSetters
import Visftp.StoreSimulation
import Visftp.SetterLaws
import Visftp.BuiltValues
import Visftp.AllocFailures
import Visftp.Lib.Chains
import Visftp.ChildLists
import Visftp.WidgetLists
import Visftp.PathLookup
import Visftp.Lib.Buffers
import Visftp.ShortNames
import Visftp.ControlBuffer
import Visftp.Reentry
import Visftp.TextParser
import Visftp.ViewerText
import Visftp.Reconnect
import Visftp.Lib.Stores
import Visftp.Tgfx
import Visftp.ListDrawing
import Visftp.Conversation
import Visftp.Display
import Visftp.Deeds
import Visftp.DisplayLines
import Visftp.ViewerDrawing
import Visftp.Damage
import Visftp.Repainting
import Visftp.Redrawing
import Visftp.Lifetimes
import Visftp.ViewerRuns
import Visftp.Lib.Cuts
import Visftp.Startup
import Visftp.Rounds
import Visftp.Provenance
import Visftp.Lib.Forests
import Visftp.TreeHeap
import Visftp.ArrayCost
import Visftp.Lib.FirstUses
import Visftp.Curses
import Visftp.UnixTgfx
import Visftp.DisplayCalls
import Visftp.Keyboard
