import Look.Compiler.Compile
import Look.Compiler.Primitives
import Look.Engines.Index
import Look.Engines.Literals
import Look.Engines.ShortCircuit
import Look.Engines.Switch
import Look.Vm.CallClosure
import Look.Channel.Safety
import Look.Channel.Close
import Look.Net.Fcgi
import Look.Net.WebSocket
import Look.Net.ImapAccess
import Look.Net.ImapLiterals
import Look.Net.Framing
import Look.Net.Chunked
import Look.Net.Pipeline
import Look.Net.SmtpSeparation
import Look.Net.SmtpFidelity
import Look.Net.SmtpRelay
import Look.Net.SmtpServer
import Look.Net.SmtpAccounting
import Look.Net.EventLoop
import Look.Jobs.Claims
import Look.Jobs.Recovery
import Look.Web.SessionStore
import Look.Web.SessionFiles
import Look.Web.Regenerate
import Look.Web.RouteAgreement
import Look.Stores.Clone
import Look.Stores.ThreadClone
import Look.Vm.GlobalCache
import Look.Interp.Steady
import Look.Interp.Unwinding
import Look.Stores.Handover
import Look.Arith.Exact
import Look.Arith.Numerals
import Look.Arith.Order
import Look.Arith.Overflow
import Look.Arith.Strtod
import Look.Db.Transaction
import Look.Db.Pool
import Look.Db.HandOut
import Look.Db.Wakeups
import Look.Db.WriteTurns
import Look.Db.Reconnect
import Look.Db.Sqlite
import Look.Mysql.Agreement
import Look.Postgres.Synchronisation
import Look.Redis.Replies
import Look.Json.Safety
import Look.Json.Acceptance
import Look.Json.RoundTrip
import Look.Template.Render
import Look.Template.Literal
import Look.Template.Tree
import Look.Template.Escaping
import Look.Template.Termination
import Look.Template.Inheritance
import Look.Syntax.Munch
import Look.Syntax.Semicolons
import Look.Syntax.Formatting
import Look.Syntax.Nesting
import Look.Tasks.Rounds
import Look.Tasks.Slots
import Look.Tasks.Fibers
import Look.Tasks.Wakes
import Look.Mysql.Escape
import Look.Db.DsnPassword
import Look.Web.Cookies
import Look.Net.Response
import Look.Postgres.Placeholders
import Look.Net.SpfFidelity
import Look.Web.Forms
import Look.Web.Multipart
import Look.Postgres.Clause
import Look.Web.SvgSoundness
import Look.Stdlib.ArraySort
import Look.Stdlib.Dates
import Look.Stdlib.Pbkdf2
import Look.Stdlib.Auth
import Look.Net.UrlSafe
import Look.Interp.UseFile
import Look.Net.Dkim
import Look.Stdlib.Strings
import Look.Jobs.Pass
import Look.Template.Blocks
