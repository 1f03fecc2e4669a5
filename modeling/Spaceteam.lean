import Spaceteam.ConnectionReads
import Spaceteam.ProxyRequest
import Spaceteam.ProxyHistory
import Spaceteam.ConfigLayout
import Spaceteam.S3Command
import Spaceteam.ConfigOrder
import Spaceteam.StatusPage
import Spaceteam.StatusThreads
import Spaceteam.ResponseText
import Spaceteam.RequestVersion
import Spaceteam.Acceptor
import Spaceteam.ProxyTermination
import Spaceteam.ProxyFailures
import Spaceteam.ServerProgress
import Spaceteam.ServerCounts
import Spaceteam.ConfiguredServer
import Spaceteam.ServedBytes
import Spaceteam.MarkdownLines
import Spaceteam.MarkdownLostLines
import Spaceteam.MarkdownPages
import Spaceteam.MarkdownCode
import Spaceteam.MarkdownEmail
import Spaceteam.MarkdownDocuments
